import Mathlib.Algebra.Order.Group.Nat
import Mathlib.Data.Nat.Log
import Mathlib.Data.List.Basic
import Mathlib.Tactic.Common
import Mathlib.Tactic.Ring

/-! # Shared helpers of the kernel (`common.c`)

Addresses are natural numbers; `NULL` is `none` of `Option ℕ`. The shifts
`1 << k` of the source are `2 ^ k`, its masks are `2 ^ k - 1`.

The lock words of `_lock`, `_unlock` and `_try_lock` hold 0 (free) or 1 (taken).
`_lock` is an `atomic_xchg` in a loop: on a taken lock it does not come back
unless another CPU releases the lock, so the model of an operation that runs
alone answers `none` there.
-/

namespace OsLab

/-- `SPIN_LOCK_INIT`. -/
def spinLockInit : ℕ := 0

/-- `_lock`: spins while the word is 1, then leaves 1 in it. -/
def lock (locked : ℕ) : Option ℕ := if locked = 1 then none else some 1

/-- `_unlock`. -/
def unlock : ℕ := 0

/-- `_try_lock`: answers whether the word was 0 and leaves 1 in it. -/
def tryLock (locked : ℕ) : Bool × ℕ := (decide (locked = 0), 1)

/-- `align_ptr`: rounds up to a multiple of `2 ^ align`. Its panic branch tests
`(1 << align) & mask`, which is 0: the mask has only the bits below `align`. -/
def alignPtr (ptr align : ℕ) : ℕ :=
  let mask := 2 ^ align - 1
  if ptr &&& mask = 0 then ptr
  else (ptr - (ptr &&& mask)) + 2 ^ align

/-- `is_aligned`. -/
def IsAligned (ptr align : ℕ) : Prop := ptr &&& (2 ^ align - 1) = 0

instance (ptr align : ℕ) : Decidable (IsAligned ptr align) :=
  inferInstanceAs (Decidable (_ = _))

theorem land_mask (ptr k : ℕ) : ptr &&& (2 ^ k - 1) = ptr % 2 ^ k :=
  Nat.and_two_pow_sub_one_eq_mod ptr k

theorem isAligned_iff {ptr align : ℕ} : IsAligned ptr align ↔ 2 ^ align ∣ ptr := by
  rw [IsAligned, land_mask, Nat.dvd_iff_mod_eq_zero]

/-- Clearing the low bits rounds down. -/
theorem sub_mod_eq (ptr k : ℕ) : ptr - ptr % 2 ^ k = ptr / 2 ^ k * 2 ^ k := by
  have := Nat.div_add_mod' ptr (2 ^ k)
  omega

theorem dvd_alignPtr (ptr align : ℕ) : 2 ^ align ∣ alignPtr ptr align := by
  unfold alignPtr
  simp only [land_mask]
  split
  · rename_i h
    exact Nat.dvd_of_mod_eq_zero h
  · rw [sub_mod_eq]
    exact Nat.dvd_add (Nat.dvd_mul_left _ _) dvd_rfl

theorem le_alignPtr (ptr align : ℕ) : ptr ≤ alignPtr ptr align := by
  have hlt := Nat.mod_lt ptr (Nat.two_pow_pos align)
  have hle := Nat.mod_le ptr (2 ^ align)
  unfold alignPtr
  simp only [land_mask]
  split <;> omega

/-- The loop `for (type = first; type < refuse; type++) if (size <= (1 << type)) return type;
return refuse;` of `trans_page_size` and `trans_slab_size`. -/
def transSize (first refuse size : ℕ) : ℕ :=
  ((List.range' first (refuse - first)).find? fun type => decide (size ≤ 2 ^ type)).getD refuse

/-- What the loop answers: the first class that is large enough, or `refuse`. -/
theorem transSize_spec {first refuse : ℕ} (hle : first ≤ refuse) (size : ℕ) :
    (first ≤ transSize first refuse size ∧ transSize first refuse size < refuse ∧
      size ≤ 2 ^ transSize first refuse size ∧
      ∀ k, first ≤ k → k < transSize first refuse size → 2 ^ k < size) ∨
    (transSize first refuse size = refuse ∧ ∀ k, first ≤ k → k < refuse → 2 ^ k < size) := by
  unfold transSize
  cases hf : (List.range' first (refuse - first)).find? fun type => decide (size ≤ 2 ^ type) with
  | none =>
      right
      refine ⟨rfl, fun k h1 h2 => ?_⟩
      have := List.find?_eq_none.1 hf k (List.mem_range'_1.2 ⟨h1, by omega⟩)
      simpa using this
  | some c =>
      left
      simp only [Option.getD_some]
      rcases List.find?_eq_some_iff_getElem.1 hf with ⟨hc, i, hi, hget, hbefore⟩
      simp only [List.length_range'] at hi
      simp only [List.getElem_range', Nat.one_mul] at hget
      refine ⟨by omega, by omega, by simpa using hc, fun k h1 h2 => ?_⟩
      have hk := hbefore (k - first) (by omega)
      simp only [List.getElem_range', Nat.one_mul, Nat.add_sub_cancel' h1] at hk
      simpa using hk

theorem transSize_le {first refuse : ℕ} (hle : first ≤ refuse) (size : ℕ) :
    transSize first refuse size ≤ refuse := by
  rcases transSize_spec hle size with h | h <;> omega

theorem first_le_transSize {first refuse : ℕ} (hle : first ≤ refuse) (size : ℕ) :
    first ≤ transSize first refuse size := by
  rcases transSize_spec hle size with h | h <;> omega

/-- A size is refused exactly when even the last class is too small. -/
theorem transSize_eq_refuse {first last : ℕ} (hle : first ≤ last) (size : ℕ) :
    transSize first (last + 1) size = last + 1 ↔ 2 ^ last < size := by
  have hle' : first ≤ last + 1 := by omega
  rcases transSize_spec hle' size with ⟨h1, h2, h3, h4⟩ | ⟨h1, h2⟩
  · have hpow : 2 ^ transSize first (last + 1) size ≤ 2 ^ last :=
      Nat.pow_le_pow_right (by omega) (by omega)
    constructor <;> intro h <;> omega
  · exact ⟨fun _ => h2 last hle (by omega), fun _ => h1⟩

end OsLab
