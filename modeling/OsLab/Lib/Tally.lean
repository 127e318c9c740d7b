import Mathlib.Data.Finset.Card
import Mathlib.Tactic.Common

/-! # How many have a property

`Counts P n`: exactly `n` elements have the property `P`. In a system of any number
of processes, of which each step moves a few, such a count follows the steps: one
more for a process that comes to have the property, one less for one that loses it.
-/

namespace Tally

variable {α : Type*} {P Q : α → Prop} {n : ℕ} {a : α}

/-- Exactly `n` elements have the property `P`. -/
def Counts (P : α → Prop) (n : ℕ) : Prop := ∃ F : Finset α, (∀ a, a ∈ F ↔ P a) ∧ F.card = n

theorem counts_zero (h : ∀ a, ¬ P a) : Counts P 0 := by
  refine ⟨∅, fun a => ?_, Finset.card_empty⟩
  exact iff_of_false (Finset.notMem_empty a) (h a)

theorem Counts.congr (h : Counts P n) (hQ : ∀ b, Q b ↔ P b) : Counts Q n := by
  rcases h with ⟨F, hF, hcard⟩
  exact ⟨F, fun b => (hF b).trans (hQ b).symm, hcard⟩

theorem Counts.pos (h : Counts P n) (ha : P a) : 0 < n := by
  rcases h with ⟨F, hF, rfl⟩
  exact Finset.card_pos.2 ⟨a, (hF a).2 ha⟩

theorem Counts.exists_of_pos (h : Counts P n) (hn : 0 < n) : ∃ a, P a := by
  rcases h with ⟨F, hF, rfl⟩
  rcases Finset.card_pos.1 hn with ⟨a, ha⟩
  exact ⟨a, (hF a).1 ha⟩

theorem Counts.unique (h : Counts P n) (hn : n ≤ 1) {b : α} (ha : P a) (hb : P b) : a = b := by
  rcases h with ⟨F, hF, rfl⟩
  exact Finset.card_le_one.1 hn a ((hF a).2 ha) b ((hF b).2 hb)

variable [DecidableEq α]

/-- `a` comes to have the property. -/
theorem Counts.add (h : Counts P n) (ha : ¬ P a) (hQ : ∀ b, Q b ↔ b = a ∨ P b) :
    Counts Q (n + 1) := by
  rcases h with ⟨F, hF, rfl⟩
  refine ⟨insert a F, fun b => ?_, Finset.card_insert_of_notMem (mt (hF a).1 ha)⟩
  rw [Finset.mem_insert, hF, hQ]

/-- `a` loses the property. -/
theorem Counts.remove (h : Counts P n) (ha : P a) (hQ : ∀ b, Q b ↔ b ≠ a ∧ P b) :
    ∃ m, Counts Q m ∧ m + 1 = n := by
  rcases h with ⟨F, hF, rfl⟩
  refine ⟨(F.erase a).card, ⟨F.erase a, fun b => ?_, rfl⟩, ?_⟩
  · rw [Finset.mem_erase, hF, hQ]
  · exact Finset.card_erase_add_one ((hF a).2 ha)

/-! How many processes are at the place `x`, when process `a` goes to `v`. -/

section Update

variable {β : Type*} {f : α → β} {x v : β}

theorem update_eq_iff (b : α) :
    Function.update f a v b = x ↔ b = a ∧ v = x ∨ b ≠ a ∧ f b = x := by
  by_cases hb : b = a
  · rw [hb, Function.update_self]
    simp
  · rw [Function.update_of_ne hb]
    simp [hb]

theorem Counts.enter (h : Counts (fun b => f b = x) n) (ha : f a ≠ x) :
    Counts (fun b => Function.update f a x b = x) (n + 1) := by
  refine h.add ha fun b => ?_
  rw [update_eq_iff]
  by_cases hb : b = a <;> simp [hb]

theorem Counts.exit (h : Counts (fun b => f b = x) n) (ha : f a = x) (hv : v ≠ x) :
    ∃ m, Counts (fun b => Function.update f a v b = x) m ∧ m + 1 = n := by
  refine h.remove ha fun b => ?_
  rw [update_eq_iff]
  simp [hv]

theorem Counts.pass (h : Counts (fun b => f b = x) n) (ha : f a ≠ x) (hv : v ≠ x) :
    Counts (fun b => Function.update f a v b = x) n := by
  refine h.congr fun b => ?_
  rw [update_eq_iff]
  by_cases hb : b = a
  · simp [hb, ha, hv]
  · simp [hb]

end Update

end Tally
