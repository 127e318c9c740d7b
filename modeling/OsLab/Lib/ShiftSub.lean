import Mathlib.Data.Nat.Log
import Mathlib.Tactic.Common
import Mathlib.Tactic.Ring

/-! # Division by shifting and subtracting

The dividend comes in bit by bit from its top. What is known while its low `j` bits are still to
come is a division of the bits seen so far (`Partial`); the next bit makes it one of one bit more.
Dividend and quotient can share one word (`register`): the bits that leave at the top make room for
the quotient at the bottom.
-/

namespace ShiftSub

variable {n d j w Q r c : ℕ}

/-- The bits of `n` above the low `j` are divided by `d`. -/
structure Partial (n d j Q r : ℕ) : Prop where
  eq : n / 2 ^ j = d * Q + r
  lt : r < d

theorem div_two_pow_eq (n j : ℕ) : n / 2 ^ j = 2 * (n / 2 ^ (j + 1)) + n / 2 ^ j % 2 := by
  rw [pow_succ, ← Nat.div_div_eq_div_mul]
  exact (Nat.div_add_mod _ 2).symm

namespace Partial

/-- Nothing of the quotient is there while what has come in is below the divisor. -/
theorem start (h : n / 2 ^ j < d) : Partial n d j 0 (n / 2 ^ j) := ⟨by simp, h⟩

/-- The remainder with the next bit behind it, before the subtraction. -/
theorem shifted_eq (h : Partial n d (j + 1) Q r) :
    n / 2 ^ j = d * (2 * Q) + (2 * r + n / 2 ^ j % 2) := by
  rw [div_two_pow_eq, h.eq]
  have hbit : (2 * (d * Q + r) + n / 2 ^ j % 2) % 2 = n / 2 ^ j % 2 := by omega
  rw [hbit]
  ring

theorem shifted_lt (h : Partial n d (j + 1) Q r) : 2 * r + n / 2 ^ j % 2 < 2 * d := by
  have hlt := h.lt
  omega

theorem shifted_le (h : Partial n d (j + 1) Q r) : 2 * r + n / 2 ^ j % 2 ≤ n / 2 ^ j := by
  conv_rhs => rw [h.shifted_eq]
  exact Nat.le_add_left _ _

/-- The step of the division: one subtraction at most, and it is a bit of the quotient. -/
theorem step (h : Partial n d (j + 1) Q r) (hr : c = if d ≤ 2 * r + n / 2 ^ j % 2 then 1 else 0) :
    Partial n d j (2 * Q + c) (2 * r + n / 2 ^ j % 2 - d * c) := by
  have heq := h.shifted_eq
  have hlt := h.shifted_lt
  by_cases hd : d ≤ 2 * r + n / 2 ^ j % 2
  · rw [if_pos hd] at hr
    subst hr
    refine ⟨?_, by omega⟩
    rw [Nat.mul_one, Nat.mul_add, Nat.mul_one, Nat.add_assoc, Nat.add_sub_cancel' hd]
    exact heq
  · rw [if_neg hd] at hr
    subst hr
    refine ⟨?_, by omega⟩
    rw [Nat.mul_zero, Nat.sub_zero, Nat.add_zero]
    exact heq

theorem quotient_le (h : Partial n d j Q r) : Q ≤ n / 2 ^ j := by
  have hd : 0 < d := Nat.lt_of_le_of_lt (Nat.zero_le r) h.lt
  calc Q ≤ d * Q := Nat.le_mul_of_pos_left Q hd
    _ ≤ n / 2 ^ j := by rw [h.eq]; exact Nat.le_add_right _ _

theorem quotient_lt (h : Partial n d j Q r) (hn : n < 2 ^ w) (hj : j ≤ w) : Q < 2 ^ (w - j) := by
  refine Nat.lt_of_le_of_lt h.quotient_le (Nat.div_lt_of_lt_mul ?_)
  rwa [← pow_add, Nat.add_sub_cancel' hj]

/-- With all bits in, it is the division. -/
theorem done (h : Partial n d 0 Q r) : Q = n / d ∧ r = n % d := by
  have heq : n = d * Q + r := by simpa using h.eq
  have hd : 0 < d := Nat.lt_of_le_of_lt (Nat.zero_le r) h.lt
  subst heq
  constructor
  · rw [Nat.mul_add_div hd, Nat.div_eq_of_lt h.lt, Nat.add_zero]
  · rw [Nat.mul_add_mod, Nat.mod_eq_of_lt h.lt]

end Partial

/-! ## Where to start -/

/-- With its top bit where the top bit of the divisor is, and one place further down, the dividend
is below the divisor. -/
theorem aligned_lt (hd : d ≠ 0) : n / 2 ^ (n.log2 + 1 - d.log2) < d := by
  refine Nat.lt_of_lt_of_le ?_ (Nat.log2_self_le hd)
  refine Nat.div_lt_of_lt_mul ?_
  rw [← pow_add]
  refine Nat.lt_of_lt_of_le (Nat.lt_log2_self) (Nat.pow_le_pow_right Nat.two_pos ?_)
  omega

theorem log2_le_log2 (h : n ≤ d) : n.log2 ≤ d.log2 := by
  rw [Nat.log2_eq_log_two, Nat.log2_eq_log_two]
  exact Nat.log_mono_right h

/-! ## One word for the dividend and the quotient -/

/-- The low `j` bits of `n` at the top of a word of `w` bits, and `Q` at its bottom. -/
def register (w n j Q : ℕ) : ℕ := n % 2 ^ j * 2 ^ (w - j) + Q

theorem mod_two_pow_succ (n j : ℕ) : n % 2 ^ (j + 1) = n / 2 ^ j % 2 * 2 ^ j + n % 2 ^ j := by
  rw [Nat.mod_pow_succ, Nat.mul_comm, Nat.add_comm]

theorem register_zero : register w n 0 Q = Q := by simp [register, Nat.mod_one]

theorem register_lt (hj : j ≤ w) (hQ : Q < 2 ^ (w - j)) : register w n j Q < 2 ^ w := by
  have hmod : n % 2 ^ j + 1 ≤ 2 ^ j := Nat.mod_lt n (Nat.two_pow_pos j)
  calc register w n j Q < (n % 2 ^ j + 1) * 2 ^ (w - j) := by rw [register, add_mul]; omega
    _ ≤ 2 ^ j * 2 ^ (w - j) := Nat.mul_le_mul_right _ hmod
    _ = 2 ^ w := by rw [← pow_add, Nat.add_sub_cancel' hj]

/-- The next bit of the dividend stands at the top. -/
theorem register_succ (hj : j + 1 ≤ w) :
    register w n (j + 1) Q = n / 2 ^ j % 2 * 2 ^ (w - 1) + register (w - 1) n j Q := by
  have hpow : 2 ^ (w - 1) = 2 ^ j * 2 ^ (w - (j + 1)) := by
    rw [← pow_add]
    congr 1
    omega
  have hsub : w - 1 - j = w - (j + 1) := by omega
  rw [register, register, mod_two_pow_succ, hpow, hsub]
  ring

theorem register_top (hj : j + 1 ≤ w) (hQ : Q < 2 ^ (w - (j + 1))) :
    register w n (j + 1) Q / 2 ^ (w - 1) = n / 2 ^ j % 2 := by
  have hlt : register (w - 1) n j Q < 2 ^ (w - 1) := by
    refine register_lt (by omega) ?_
    rwa [show w - 1 - j = w - (j + 1) by omega]
  rw [register_succ hj, Nat.add_comm, Nat.add_mul_div_right _ _ (Nat.two_pow_pos _),
    Nat.div_eq_of_lt hlt, Nat.zero_add]

/-- Shifted by one place, with `c` behind it. -/
theorem register_shift (hj : j + 1 ≤ w) (hQ : 2 * Q + c < 2 ^ (w - j)) :
    (2 * register w n (j + 1) Q + c) % 2 ^ w = register w n j (2 * Q + c) := by
  have hw : 2 ^ w = 2 * 2 ^ (w - 1) := by
    rw [← pow_succ']
    congr 1
    omega
  have hwj : 2 ^ (w - j) = 2 * 2 ^ (w - 1 - j) := by
    rw [← pow_succ']
    congr 1
    omega
  have hreg : 2 * register (w - 1) n j Q + c = register w n j (2 * Q + c) := by
    rw [register, register, hwj]
    ring
  calc (2 * register w n (j + 1) Q + c) % 2 ^ w
      = (register w n j (2 * Q + c) + 2 ^ w * (n / 2 ^ j % 2)) % 2 ^ w := by
        rw [register_succ hj, ← hreg, hw]
        congr 1
        ring
    _ = register w n j (2 * Q + c) % 2 ^ w := Nat.add_mul_mod_self_left _ _ _
    _ = register w n j (2 * Q + c) := Nat.mod_eq_of_lt (register_lt (by omega) hQ)

end ShiftSub
