import Mathlib.Algebra.Order.Group.Nat
import Mathlib.Data.List.Range
import Mathlib.Logic.Function.Basic
import Mathlib.Tactic.Common

/-! # Ring buffers with two indices

A ring of `n` cells `q`, a `head` and a `tail` index below `n`, and no counter:
the entries are the cells from `head` up to `tail`, wrapping round, and the ring
counts as empty when the indices are equal. So it holds at most `n - 1` entries:
one more makes it look empty (`window_push_full`). `Holds` says which entries a ring
has, with a lemma for each operation that leaves it in order.
-/

namespace Ring

variable {β : Type*} {n : ℕ}

/-- The number of entries. -/
def len (n head tail : ℕ) : ℕ := (tail + n - head) % n

/-- The entries, from `head` up to `tail`. -/
def window (n : ℕ) (q : ℕ → β) (head tail : ℕ) : List β :=
  (List.range (len n head tail)).map fun i => q ((head + i) % n)

@[simp] theorem length_window (q : ℕ → β) (head tail : ℕ) :
    (window n q head tail).length = len n head tail := by
  simp [window]

/-- The difference of the indices. -/
theorem len_eq_emod {head tail : ℕ} (hh : head < n) :
    (len n head tail : ℤ) = ((tail : ℤ) - head) % n := by
  have hcast : ((tail + n - head : ℕ) : ℤ) = (tail : ℤ) - head + n := by omega
  rw [len, Int.natCast_mod, hcast, Int.add_emod_right]

/-- The two ways `head` and `tail` can lie. -/
theorem len_eq {head tail : ℕ} (hh : head < n) (ht : tail < n) :
    len n head tail = if head ≤ tail then tail - head else tail + n - head := by
  unfold len
  split
  · rw [show tail + n - head = tail - head + n by omega, Nat.add_mod_right]
    exact Nat.mod_eq_of_lt (by omega)
  · exact Nat.mod_eq_of_lt (by omega)

theorem len_lt {head tail : ℕ} (hh : head < n) : len n head tail < n :=
  Nat.mod_lt _ (by omega)

theorem len_eq_zero_iff {head tail : ℕ} (hh : head < n) (ht : tail < n) :
    len n head tail = 0 ↔ head = tail := by
  rw [len_eq hh ht]
  split <;> omega

/-- The index after `i`. -/
theorem succ_mod_eq {i : ℕ} (hi : i < n) :
    (i + 1) % n = if i + 1 = n then 0 else i + 1 := by
  split
  · rename_i h
    rw [h, Nat.mod_self]
  · exact Nat.mod_eq_of_lt (by omega)

theorem succ_mod_lt {i : ℕ} (hi : i < n) : (i + 1) % n < n := Nat.mod_lt _ (by omega)

/-- The index of the entry number `i`. -/
theorem add_mod_eq {head i : ℕ} (hh : head < n) (hi : i < n) :
    (head + i) % n = if head + i < n then head + i else head + i - n := by
  split
  · rename_i h
    exact Nat.mod_eq_of_lt h
  · rw [Nat.mod_eq_sub_mod (by omega)]
    exact Nat.mod_eq_of_lt (by omega)

/-- Different entries are in different cells. -/
theorem add_mod_injective {head i j : ℕ} (hh : head < n) (hi : i < n) (hj : j < n)
    (h : (head + i) % n = (head + j) % n) : i = j := by
  rw [add_mod_eq hh hi, add_mod_eq hh hj] at h
  split at h <;> split at h <;> omega

/-! ## Pushing -/

/-- A push makes the ring longer by one, until it has wrapped round. -/
theorem len_push {head tail : ℕ} (hh : head < n) (ht : tail < n) :
    len n head ((tail + 1) % n) = if len n head tail + 1 = n then 0 else len n head tail + 1 := by
  rw [len_eq hh (succ_mod_lt ht), len_eq hh ht, succ_mod_eq ht]
  split_ifs <;> omega

/-- A push after which the ring does not look empty had room. -/
theorem len_add_one_lt {head tail : ℕ} (hh : head < n) (ht : tail < n)
    (hne : (tail + 1) % n ≠ head) : len n head tail + 1 < n := by
  have hpush := len_push hh ht
  have hpos := mt (len_eq_zero_iff hh (succ_mod_lt ht)).1 (Ne.symm hne)
  have hlt : len n head tail < n := len_lt hh
  split_ifs at hpush <;> omega

/-- The cell at `tail` comes right after the entries. -/
theorem add_len_mod {head tail : ℕ} (hh : head < n) (ht : tail < n) :
    (head + len n head tail) % n = tail := by
  rw [add_mod_eq hh (len_lt hh), len_eq hh ht]
  split_ifs <;> omega

/-- The cell at `tail` is no entry. -/
theorem map_update_tail {q : ℕ → β} {head tail : ℕ} (x : β) (hh : head < n) (ht : tail < n) :
    ((List.range (len n head tail)).map fun i => Function.update q tail x ((head + i) % n)) =
      (List.range (len n head tail)).map fun i => q ((head + i) % n) := by
  apply List.map_congr_left
  intro i hi
  have hlt := List.mem_range.1 hi
  have hlen : len n head tail < n := len_lt hh
  apply Function.update_of_ne
  -- entry `i` is not in the cell that is written
  intro he
  rw [← add_len_mod hh ht] at he
  have := add_mod_injective hh (by omega) (by omega) he
  omega

theorem window_update_tail {q : ℕ → β} {head tail : ℕ} (x : β) (hh : head < n) (ht : tail < n) :
    window n (Function.update q tail x) head tail = window n q head tail :=
  map_update_tail x hh ht

theorem window_push {q : ℕ → β} {head tail : ℕ} {x : β} (hh : head < n) (ht : tail < n)
    (hroom : len n head tail + 1 < n) :
    window n (Function.update q tail x) head ((tail + 1) % n) = window n q head tail ++ [x] := by
  unfold window
  rw [len_push hh ht, if_neg (by omega), List.range_succ, List.map_append, List.map_singleton,
    add_len_mod hh ht, Function.update_self]
  rw [map_update_tail x hh ht]

/-- The push that fills the last cell empties the ring. -/
theorem window_push_full {q : ℕ → β} {head tail : ℕ} {x : β} (hh : head < n) (ht : tail < n)
    (hfull : len n head tail + 1 = n) :
    window n (Function.update q tail x) head ((tail + 1) % n) = [] := by
  unfold window
  rw [len_push hh ht, if_pos hfull]
  rfl

/-- After a push, full or not, an entry is an old one or the new one. -/
theorem mem_window_push {q : ℕ → β} {head tail : ℕ} {x y : β} (hh : head < n) (ht : tail < n)
    (hy : y ∈ window n (Function.update q tail x) head ((tail + 1) % n)) :
    y ∈ window n q head tail ∨ y = x := by
  rcases Nat.lt_or_ge (len n head tail + 1) n with hroom | hfull
  · rw [window_push hh ht hroom] at hy
    rcases List.mem_append.1 hy with hy | hy
    · exact Or.inl hy
    · exact Or.inr (List.mem_singleton.1 hy)
  · have hlt : len n head tail < n := len_lt hh
    rw [window_push_full hh ht (by omega)] at hy
    cases hy

/-! ## Popping -/

theorem len_pop {head tail : ℕ} (hh : head < n) (ht : tail < n) (hne : head ≠ tail) :
    len n head tail = len n ((head + 1) % n) tail + 1 := by
  rw [len_eq hh ht, len_eq (succ_mod_lt hh) ht, succ_mod_eq hh]
  split_ifs <;> omega

theorem window_pop {q : ℕ → β} {head tail : ℕ} (hh : head < n) (ht : tail < n)
    (hne : head ≠ tail) :
    window n q head tail = q head :: window n q ((head + 1) % n) tail := by
  unfold window
  rw [len_pop hh ht hne, List.range_succ_eq_map, List.map_cons, List.map_map]
  congr 1
  · rw [Nat.add_zero, Nat.mod_eq_of_lt hh]
  · apply List.map_congr_left
    intro i _
    rw [Function.comp_apply, Nat.mod_add_mod, Nat.succ_eq_add_one, Nat.add_right_comm, Nat.add_assoc]

/-! ## Taking back -/

/-- The index before `i`. -/
def pred (n i : ℕ) : ℕ := if i = 0 then n - 1 else i - 1

theorem pred_lt {i : ℕ} (hi : i < n) : pred n i < n := by
  unfold pred
  split <;> omega

theorem succ_pred_mod {i : ℕ} (hi : i < n) : (pred n i + 1) % n = i := by
  have hpred : pred n i + 1 = if i = 0 then n else i := by
    unfold pred
    split <;> omega
  rw [succ_mod_eq (pred_lt hi), hpred]
  split_ifs <;> omega

theorem pred_succ_mod {i : ℕ} (hi : i < n) : pred n ((i + 1) % n) = i := by
  rw [succ_mod_eq hi]
  by_cases hend : i + 1 = n
  · rw [if_pos hend, pred, if_pos rfl]
    omega
  · rw [if_neg hend, pred, if_neg (Nat.succ_ne_zero i), Nat.add_sub_cancel]

/-- The index before `head` is the tail of a full ring. -/
theorem eq_pred_iff {head tail : ℕ} (hh : head < n) (ht : tail < n) :
    tail = pred n head ↔ len n head tail + 1 = n := by
  rw [len_eq hh ht, pred]
  split_ifs <;> omega

/-- The last entry is in the cell before `tail`. -/
theorem window_popBack {q : ℕ → β} {head tail : ℕ} (hh : head < n) (ht : tail < n)
    (hne : head ≠ tail) :
    window n q head tail = window n q head (pred n tail) ++ [q (pred n tail)] := by
  have hp := pred_lt ht
  have hlt : len n head (pred n tail) < n := len_lt hh
  have hroom : len n head (pred n tail) + 1 < n := by
    have hpush := len_push hh hp
    rw [succ_pred_mod ht] at hpush
    have hpos := mt (len_eq_zero_iff hh ht).1 hne
    split_ifs at hpush <;> omega
  have hpush := window_push (q := q) (x := q (pred n tail)) hh hp hroom
  rwa [Function.update_eq_self, succ_pred_mod ht] at hpush

/-- An empty window means equal indices. -/
theorem window_eq_nil_iff {q : ℕ → β} {head tail : ℕ} (hh : head < n) (ht : tail < n) :
    window n q head tail = [] ↔ head = tail := by
  rw [← len_eq_zero_iff hh ht, ← length_window q, List.length_eq_zero_iff]

/-! ## What the ring holds -/

/-- The entries are `l`. -/
structure Holds (n : ℕ) (q : ℕ → β) (head tail : ℕ) (l : List β) : Prop where
  head_lt : head < n
  tail_lt : tail < n
  window : Ring.window n q head tail = l

namespace Holds

variable {q : ℕ → β} {head tail : ℕ} {l : List β} {x : β}

theorem nil {i : ℕ} (hi : i < n) : Holds n q i i [] := ⟨hi, hi, (window_eq_nil_iff hi hi).2 rfl⟩

theorem len_eq (h : Holds n q head tail l) : len n head tail = l.length := by
  rw [← h.window, length_window]

theorem length_lt (h : Holds n q head tail l) : l.length < n := by
  rw [← h.len_eq]
  exact len_lt h.head_lt

/-- Equal indices, which is all that the ring itself can tell. -/
theorem eq_iff (h : Holds n q head tail l) : head = tail ↔ l = [] := by
  rw [← h.window, window_eq_nil_iff h.head_lt h.tail_lt]

theorem tail_eq_pred_iff (h : Holds n q head tail l) : tail = pred n head ↔ l.length + 1 = n := by
  rw [← h.len_eq, eq_pred_iff h.head_lt h.tail_lt]

theorem update_tail (h : Holds n q head tail l) (x : β) :
    Holds n (Function.update q tail x) head tail l :=
  ⟨h.head_lt, h.tail_lt, (window_update_tail x h.head_lt h.tail_lt).trans h.window⟩

theorem push (h : Holds n q head tail l) (hne : (tail + 1) % n ≠ head) (x : β) :
    Holds n (Function.update q tail x) head ((tail + 1) % n) (l ++ [x]) := by
  refine ⟨h.head_lt, succ_mod_lt h.tail_lt, ?_⟩
  rw [window_push h.head_lt h.tail_lt (len_add_one_lt h.head_lt h.tail_lt hne), h.window]

/-- The first entry is in the cell at `head`. -/
theorem pop (h : Holds n q head tail (x :: l)) :
    q head = x ∧ Holds n q ((head + 1) % n) tail l := by
  have hne := mt h.eq_iff.1 (List.cons_ne_nil x l)
  have hwin := h.window
  rw [window_pop h.head_lt h.tail_lt hne] at hwin
  rcases List.cons.inj hwin with ⟨hhead, hrest⟩
  exact ⟨hhead, succ_mod_lt h.head_lt, h.tail_lt, hrest⟩

/-- The last entry is in the cell before `tail`. -/
theorem popBack (h : Holds n q head tail (l ++ [x])) :
    q (pred n tail) = x ∧ Holds n q head (pred n tail) l := by
  have hne := mt h.eq_iff.1 (List.concat_ne_nil x l)
  have hwin := h.window
  rw [window_popBack h.head_lt h.tail_lt hne] at hwin
  rcases List.append_inj' hwin rfl with ⟨hw, hlast⟩
  exact ⟨(List.cons.inj hlast).1, h.head_lt, pred_lt h.tail_lt, hw⟩

end Holds

end Ring
