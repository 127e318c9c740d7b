import Mathlib.Data.Nat.Bitwise
import Mathlib.Tactic.Common

/-! # Words as numbers

The low `k` bits of a number are its remainder by `2 ^ k`; a mask keeps or clears them, and they can
be added to a multiple of `2 ^ k` bit by bit.
-/

namespace Words

variable {a e f p k w i : ℕ}

/-- A mask of low bits sees the low bits only. -/
theorem and_low (hf : f < 2 ^ k) : e &&& f = e % 2 ^ k &&& f := by
  rw [← Nat.mod_eq_of_lt (Nat.and_lt_two_pow e hf), Nat.and_mod_two_pow, Nat.mod_eq_of_lt hf]

/-- `a & ~(2 ^ k - 1)`, on words of `w` bits. -/
theorem and_high (h : a < 2 ^ w) (hk : k ≤ w) :
    a &&& (2 ^ w - 1 - (2 ^ k - 1)) = a / 2 ^ k * 2 ^ k := by
  apply Nat.eq_of_testBit_eq
  intro i
  have hpow := Nat.two_pow_pos k
  have hle : 2 ^ k ≤ 2 ^ w := Nat.pow_le_pow_right (by decide) hk
  have hmask : (2 ^ w - 1 - (2 ^ k - 1)).testBit i = (decide (i < w) && !decide (i < k)) := by
    rw [show 2 ^ w - 1 - (2 ^ k - 1) = 2 ^ w - (2 ^ k - 1 + 1) by omega,
      Nat.testBit_two_pow_sub_succ (by omega), Nat.testBit_two_pow_sub_one]
  rw [Nat.testBit_and, hmask, Nat.testBit_mul_two_pow, Nat.testBit_div_two_pow]
  by_cases hi : k ≤ i
  · rw [Nat.sub_add_cancel hi]
    by_cases hiw : i < w
    · simp [hi, hiw, Nat.not_lt_of_le hi]
    · rw [Nat.testBit_lt_two_pow (lt_of_lt_of_le h (Nat.pow_le_pow_right (by decide)
        (Nat.le_of_not_lt hiw)))]
      simp
  · simp [hi, Nat.lt_of_not_le hi]

/-- Low bits that are free. -/
theorem or_low (hp : 2 ^ k ∣ p) (hf : f < 2 ^ k) : p ||| f = p + f := by
  rcases hp with ⟨n, rfl⟩
  exact (Nat.two_pow_add_eq_or_of_lt hf n).symm

/-- `n` bytes from `a` on, the lowest first. -/
def leWord (mem : ℕ → UInt8) (a : ℕ) : ℕ → ℕ
  | 0 => 0
  | n + 1 => (mem a).toNat + 2 ^ 8 * leWord mem (a + 1) n

theorem leWord_lt (mem : ℕ → UInt8) (a n : ℕ) : leWord mem a n < 2 ^ (8 * n) := by
  induction n generalizing a with
  | zero => exact Nat.one_pos
  | succ n ih =>
      have hbyte := (mem a).toNat_lt
      have hrest := ih (a + 1)
      rw [leWord, Nat.mul_succ, Nat.pow_add]
      omega

theorem leWord_congr {m m' : ℕ → UInt8} {b n : ℕ} (h : ∀ j < n, m' (b + j) = m (a + j)) :
    leWord m' b n = leWord m a n := by
  induction n generalizing a b with
  | zero => rfl
  | succ n ih =>
      have h0 : m' b = m a := h 0 (Nat.succ_pos n)
      rw [leWord, leWord, h0]
      refine congrArg (fun x => _ + 2 ^ 8 * x) (ih fun j hj => ?_)
      rw [Nat.add_assoc, Nat.add_assoc, Nat.add_comm 1 j]
      exact h (j + 1) (Nat.succ_lt_succ hj)

end Words
