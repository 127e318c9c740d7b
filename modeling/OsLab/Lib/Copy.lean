import Mathlib.Algebra.Order.Group.Nat
import Mathlib.Logic.Function.Basic
import Mathlib.Tactic.Common

/-! # Copying cell by cell

`copyTo m dst src n out` copies `n` cells of `m` from `src` on into `out` from `dst` on, and
`copyUp` does the same inside one array, in ascending order. When source and
target overlap, the ascending order is right exactly if the target is not above
the source. `copyRows` copies a rectangle into a wider one, row after row. `fill`
stores one value in `n` cells.
-/

namespace Copy

variable {β : Type*}

/-- Cells `src`, .., `src + n - 1` of `m` into the cells of `out` from `dst` on. -/
def copyTo (m : ℕ → β) (dst src : ℕ) : ℕ → (ℕ → β) → ℕ → β
  | 0, out => out
  | n + 1, out => Function.update (copyTo m dst src n out) (dst + n) (m (src + n))

/-- The same inside one array, the cells in ascending order. -/
def copyUp (dst src : ℕ) : ℕ → (ℕ → β) → ℕ → β
  | 0, m => m
  | n + 1, m => Function.update (copyUp dst src n m) (dst + n) (copyUp dst src n m (src + n))

theorem copyTo_apply (m : ℕ → β) (dst src n : ℕ) (out : ℕ → β) (a : ℕ) :
    copyTo m dst src n out a = if dst ≤ a ∧ a < dst + n then m (src + (a - dst)) else out a := by
  induction n with
  | zero =>
      rw [if_neg (by omega)]
      rfl
  | succ n ih =>
      rw [copyTo]
      by_cases ha : a = dst + n
      · subst ha
        rw [Function.update_self, if_pos (by omega), Nat.add_sub_cancel_left]
      · rw [Function.update_of_ne ha, ih]
        by_cases hin : dst ≤ a ∧ a < dst + n
        · rw [if_pos hin, if_pos (by omega)]
        · rw [if_neg hin, if_neg (by omega)]

/-- A copy is done in two parts. -/
theorem copyTo_add (m : ℕ → β) (dst src k n : ℕ) (out : ℕ → β) :
    copyTo m (dst + k) (src + k) n (copyTo m dst src k out) = copyTo m dst src (k + n) out := by
  induction n with
  | zero => rfl
  | succ n ih => rw [copyTo, ih, ← Nat.add_assoc, copyTo, Nat.add_assoc, Nat.add_assoc]

theorem copyTo_congr {m m' : ℕ → β} {dst src n : ℕ} {out : ℕ → β}
    (h : ∀ a, src ≤ a → a < src + n → m a = m' a) :
    copyTo m dst src n out = copyTo m' dst src n out := by
  funext a
  rw [copyTo_apply, copyTo_apply]
  split
  · exact h _ (by omega) (by omega)
  · rfl

/-- Copies to different places commute. -/
theorem copyTo_comm {m m' : ℕ → β} {dst src n dst' src' n' : ℕ} {out : ℕ → β}
    (h : ∀ a, dst ≤ a → a < dst + n → dst' ≤ a → dst' + n' ≤ a) :
    copyTo m dst src n (copyTo m' dst' src' n' out) =
      copyTo m' dst' src' n' (copyTo m dst src n out) := by
  funext a
  simp only [copyTo_apply]
  by_cases ha : dst ≤ a ∧ a < dst + n
  · have hout : ¬ (dst' ≤ a ∧ a < dst' + n') := fun hin =>
      absurd (h a ha.1 ha.2 hin.1) (by omega)
    rw [if_pos ha, if_neg hout, if_pos ha]
  · rw [if_neg ha, if_neg ha]

/-- With the target below the source, no cell is overwritten before it is read. -/
theorem copyUp_eq_copyTo {dst src : ℕ} (h : dst ≤ src) (n : ℕ) (m : ℕ → β) :
    copyUp dst src n m = copyTo m dst src n m := by
  induction n with
  | zero => rfl
  | succ n ih =>
      rw [copyUp, copyTo, ih]
      congr 1
      rw [copyTo_apply]
      split
      · omega
      · rfl

theorem copyUp_apply {dst src : ℕ} (h : dst ≤ src) (n : ℕ) (m : ℕ → β) (a : ℕ) :
    copyUp dst src n m a = if dst ≤ a ∧ a < dst + n then m (src + (a - dst)) else m a := by
  rw [copyUp_eq_copyTo h, copyTo_apply]

/-- The first round, taken apart from the others. -/
theorem copyUp_succ (dst src n : ℕ) (m : ℕ → β) :
    copyUp dst src (n + 1) m =
      copyUp (dst + 1) (src + 1) n (Function.update m dst (m src)) := by
  induction n with
  | zero => rfl
  | succ n ih =>
      rw [copyUp, ih, copyUp, show dst + (n + 1) = dst + 1 + n by omega,
        show src + (n + 1) = src + 1 + n by omega]

/-- `n` rows of `m`, which are `w` long, into an array with rows of length `W`, from column `x` of
row `y` on. Of each row go the first `len` cells. -/
def copyRows (m : ℕ → β) (w W x y len : ℕ) : ℕ → (ℕ → β) → ℕ → β
  | 0, out => out
  | n + 1, out => copyTo m (x + (n + y) * W) (w * n) len (copyRows m w W x y len n out)

/-- A cell in column `c` of row `r` is the only one with its index. -/
theorem row_index_inj {W c c' r r' : ℕ} (hc : c < W) (hc' : c' < W)
    (h : c + r * W = c' + r' * W) : c = c' ∧ r = r' := by
  have hpos : 0 < W := by omega
  have hmod := congrArg (· % W) h
  have hdiv := congrArg (· / W) h
  simp only [Nat.add_mul_mod_self_right, Nat.mod_eq_of_lt hc, Nat.mod_eq_of_lt hc'] at hmod
  simp only [Nat.add_mul_div_right _ _ hpos, Nat.div_eq_of_lt hc, Nat.div_eq_of_lt hc',
    Nat.zero_add] at hdiv
  exact ⟨hmod, hdiv⟩

theorem copyRows_apply {m : ℕ → β} {w W x y len n : ℕ} {out : ℕ → β}
    (hlen : len = 0 ∨ x + len ≤ W) {c r : ℕ} (hc : c < W) : copyRows m w W x y len n out (c + r * W) =
      if x ≤ c ∧ c < x + len ∧ y ≤ r ∧ r < y + n then m (w * (r - y) + (c - x))
      else out (c + r * W) := by
  induction n with
  | zero =>
      rw [if_neg (by omega)]
      rfl
  | succ n ih =>
      rw [copyRows, copyTo_apply]
      by_cases hin : x + (n + y) * W ≤ c + r * W ∧ c + r * W < x + (n + y) * W + len
      · -- the row that comes last
        have hcell : c + r * W = (x + (c + r * W - (x + (n + y) * W))) + (n + y) * W := by omega
        rcases row_index_inj hc (by omega) hcell with ⟨hcx, rfl⟩
        rw [if_pos hin, if_pos (by omega)]
        congr 1
        rw [Nat.add_sub_cancel]
        omega
      · rw [if_neg hin, ih]
        have hrow : ¬ (r = n + y ∧ x ≤ c ∧ c < x + len) := by
          rintro ⟨rfl, hle, hlt⟩
          exact hin ⟨by omega, by omega⟩
        by_cases hold : x ≤ c ∧ c < x + len ∧ y ≤ r ∧ r < y + n
        · rw [if_pos hold, if_pos (by omega)]
        · rw [if_neg hold, if_neg (by omega)]

/-- `c` in the cells `dst`, .., `dst + n - 1` of `m`. -/
def fill (dst n : ℕ) (c : β) (m : ℕ → β) (a : ℕ) : β := if dst ≤ a ∧ a < dst + n then c else m a

theorem fill_zero (dst : ℕ) (c : β) (m : ℕ → β) : fill dst 0 c m = m := by
  funext a
  unfold fill
  rw [if_neg (by omega)]

theorem fill_succ (dst n : ℕ) (c : β) (m : ℕ → β) :
    fill dst (n + 1) c m = Function.update (fill dst n c m) (dst + n) c := by
  funext a
  by_cases ha : a = dst + n
  · subst ha
    rw [Function.update_self]
    unfold fill
    rw [if_pos (by omega)]
  · rw [Function.update_of_ne ha]
    unfold fill
    by_cases hin : dst ≤ a ∧ a < dst + n
    · rw [if_pos hin, if_pos (by omega)]
    · rw [if_neg hin, if_neg (by omega)]

theorem fill_one (dst : ℕ) (c : β) (m : ℕ → β) : fill dst 1 c m = Function.update m dst c := by
  rw [fill_succ, fill_zero, Nat.add_zero]

/-- Two stretches of cells that lie next to each other. -/
theorem fill_add (dst k n : ℕ) (c : β) (m : ℕ → β) :
    fill (dst + k) n c (fill dst k c m) = fill dst (k + n) c m := by
  induction n with
  | zero => rw [fill_zero, Nat.add_zero]
  | succ n ih => rw [fill_succ, ih, ← Nat.add_assoc, fill_succ, Nat.add_assoc]

end Copy
