import Mathlib.Data.Finset.Card
import Mathlib.Data.Finset.Image
import Mathlib.Data.Nat.ModEq
import Mathlib.Data.Nat.Prime.Basic
import Mathlib.Logic.Function.Iterate
import Mathlib.Tactic.Ring

/-! # Linear congruential generators

Modulo a power of two a generator goes through all the remainders before it repeats, wherever it
starts, when its multiplier is 1 modulo 4 and its increment is odd. Over such a period it meets each
set of remainders as often as there are remainders in it.
-/

namespace Lcg

variable {a c k n x : ℕ}

/-- A step modulo `M`. -/
def step (a c M x : ℕ) : ℕ := (a * x + c) % M

/-- `1 + a + .. + a ^ (n - 1)`. -/
def geom (a : ℕ) : ℕ → ℕ
  | 0 => 0
  | n + 1 => a * geom a n + 1

theorem geom_add (a m n : ℕ) : geom a (m + n) = a ^ n * geom a m + geom a n := by
  induction n with
  | zero => simp [geom]
  | succ n ih =>
      rw [← Nat.add_assoc, geom, ih, geom]
      ring

theorem geom_double (a n : ℕ) : geom a (2 * n) = geom a n * (a ^ n + 1) := by
  rw [Nat.two_mul, geom_add]
  ring

theorem geom_mul (a n : ℕ) : a * geom (a + 1) n + 1 = (a + 1) ^ n := by
  induction n with
  | zero => simp [geom]
  | succ n ih =>
      rw [geom, pow_succ, ← ih]
      ring

/-- `n` steps at once. -/
theorem iterate_step (M : ℕ) (hx : x < M) (n : ℕ) :
    (step a c M)^[n] x = (a ^ n * x + c * geom a n) % M := by
  induction n with
  | zero => simp [geom, Nat.mod_eq_of_lt hx]
  | succ n ih =>
      have hring : a ^ (n + 1) * x + c * geom a (n + 1) =
          a * (a ^ n * x + c * geom a n) + c := by
        rw [geom]
        ring
      rw [Function.iterate_succ_apply', ih, step, hring, Nat.add_mod, Nat.mul_mod, Nat.mod_mod,
        ← Nat.mul_mod, ← Nat.add_mod]

/-! ## The period -/

theorem pow_mod_four (ha : a % 4 = 1) (n : ℕ) : a ^ n % 4 = 1 := by
  rw [Nat.pow_mod, ha, Nat.one_pow]

theorem geom_mod_two (ha : a % 4 = 1) (n : ℕ) : geom a n % 2 = n % 2 := by
  induction n with
  | zero => rfl
  | succ n ih =>
      have hodd : a % 2 = 1 := by omega
      rw [geom, Nat.add_mod, Nat.mul_mod, hodd, ih, Nat.one_mul, Nat.mod_mod, ← Nat.add_mod]

/-- Only with `n` the sum becomes a multiple of `2 ^ k`: twice the terms make one factor 2 more. -/
theorem dvd_of_dvd_geom (ha : a % 4 = 1) (h : 2 ^ k ∣ geom a n) : 2 ^ k ∣ n := by
  induction k generalizing n with
  | zero => exact Nat.one_dvd n
  | succ k ih =>
      have heven : n % 2 = 0 := by
        rw [← geom_mod_two ha n]
        exact Nat.mod_eq_zero_of_dvd ((Dvd.intro_left (2 ^ k) rfl).trans h)
      obtain ⟨m, rfl⟩ : ∃ m, n = 2 * m := ⟨n / 2, by omega⟩
      obtain ⟨t, ht⟩ : ∃ t, a ^ m + 1 = 2 * (2 * t + 1) := by
        have := pow_mod_four ha m
        exact ⟨a ^ m / 4, by omega⟩
      have hfactor : geom a (2 * m) = geom a m * (2 * t + 1) * 2 := by
        rw [geom_double, ht]
        ring
      rw [hfactor, Nat.pow_succ] at h
      have hodd : Nat.Coprime (2 ^ k) (2 * t + 1) := by
        refine Nat.Coprime.pow_left k ?_
        rw [Nat.coprime_two_left, Nat.odd_iff]
        omega
      have hm := ih (hodd.dvd_of_dvd_mul_right (Nat.dvd_of_mul_dvd_mul_right Nat.two_pos h))
      rw [Nat.pow_succ, Nat.mul_comm]
      exact Nat.mul_dvd_mul_left 2 hm

theorem dvd_geom (ha : a % 4 = 1) (k : ℕ) : 2 ^ k ∣ geom a (2 ^ k) := by
  induction k with
  | zero => exact Nat.one_dvd _
  | succ k ih =>
      have heven : 2 ∣ a ^ 2 ^ k + 1 := by
        have := pow_mod_four ha (2 ^ k)
        omega
      rw [Nat.pow_succ, Nat.mul_comm (2 ^ k) 2, geom_double, Nat.mul_comm 2]
      exact Nat.mul_dvd_mul ih heven

/-- What `n` steps add is a multiple of the sum, and odd otherwise. -/
theorem steps_eq (hpos : 0 < a) (x n : ℕ) :
    a ^ n * x + c * geom a n = x + geom a n * ((a - 1) * x + c) := by
  obtain ⟨b, rfl⟩ : ∃ b, a = b + 1 := ⟨a - 1, by omega⟩
  rw [← geom_mul, Nat.add_sub_cancel]
  ring

/-- After `2 ^ k` steps the generator is where it started. -/
theorem iterate_period (ha : a % 4 = 1) (hx : x < 2 ^ k) : (step a c (2 ^ k))^[2 ^ k] x = x := by
  obtain ⟨t, ht⟩ := dvd_geom ha k
  rw [iterate_step _ hx, steps_eq (by omega), ht, Nat.mul_assoc, Nat.add_mul_mod_self_left,
    Nat.mod_eq_of_lt hx]

/-- Not before that. -/
theorem dvd_of_iterate_eq (ha : a % 4 = 1) (hc : c % 2 = 1) (hx : x < 2 ^ k)
    (h : (step a c (2 ^ k))^[n] x = x) : 2 ^ k ∣ n := by
  rw [iterate_step _ hx, steps_eq (by omega)] at h
  have hmod : (x + geom a n * ((a - 1) * x + c)) % 2 ^ k = (x + 0) % 2 ^ k := by
    rw [h, Nat.add_zero, Nat.mod_eq_of_lt hx]
  have hdvd : 2 ^ k ∣ geom a n * ((a - 1) * x + c) :=
    Nat.modEq_zero_iff_dvd.1 (Nat.ModEq.add_left_cancel' x hmod)
  have hodd : Nat.Coprime (2 ^ k) ((a - 1) * x + c) := by
    refine Nat.Coprime.pow_left k ?_
    obtain ⟨t, ht⟩ : ∃ t, a - 1 = 2 * t := ⟨(a - 1) / 2, by omega⟩
    rw [Nat.coprime_two_left, Nat.odd_iff, ht, Nat.mul_assoc]
    omega
  exact dvd_of_dvd_geom ha (hodd.dvd_of_dvd_mul_right hdvd)

theorem iterate_lt (hx : x < 2 ^ k) (n : ℕ) : (step a c (2 ^ k))^[n] x < 2 ^ k := by
  rw [iterate_step _ hx]
  exact Nat.mod_lt _ (Nat.two_pow_pos k)

theorem iterate_injOn (ha : a % 4 = 1) (hc : c % 2 = 1) (hx : x < 2 ^ k) :
    Set.InjOn (fun i => (step a c (2 ^ k))^[i] x) (Finset.range (2 ^ k)) := by
  have hlt : ∀ i j, i < j → j < 2 ^ k → (step a c (2 ^ k))^[i] x ≠ (step a c (2 ^ k))^[j] x := by
    intro i j hij hj heq
    have hback : (step a c (2 ^ k))^[j - i] ((step a c (2 ^ k))^[i] x) =
        (step a c (2 ^ k))^[i] x := by
      rw [← Function.iterate_add_apply, Nat.sub_add_cancel hij.le, heq]
    have hle := Nat.le_of_dvd (by omega) (dvd_of_iterate_eq ha hc (iterate_lt hx i) hback)
    omega
  intro i hi j hj heq
  rw [Finset.coe_range, Set.mem_Iio] at hi hj
  rcases Nat.lt_trichotomy i j with h | h | h
  · exact absurd heq (hlt i j h hj)
  · exact h
  · exact absurd heq.symm (hlt j i h hi)

/-- Over a period each set of remainders is met as often as it has members. -/
theorem card_filter_iterate (ha : a % 4 = 1) (hc : c % 2 = 1) (hx : x < 2 ^ k) (p : ℕ → Prop)
    [DecidablePred p] :
    ((Finset.range (2 ^ k)).filter fun i => p ((step a c (2 ^ k))^[i] x)).card =
      ((Finset.range (2 ^ k)).filter p).card := by
  have hinj := iterate_injOn ha hc hx
  have himage : (Finset.range (2 ^ k)).image (fun i => (step a c (2 ^ k))^[i] x) =
      Finset.range (2 ^ k) := by
    refine Finset.eq_of_subset_of_card_le (fun y hy => ?_) ?_
    · obtain ⟨i, -, rfl⟩ := Finset.mem_image.1 hy
      exact Finset.mem_range.2 (iterate_lt hx i)
    · rw [Finset.card_image_of_injOn hinj]
  have hfilter : (Finset.range (2 ^ k)).filter p =
      ((Finset.range (2 ^ k)).filter fun i => p ((step a c (2 ^ k))^[i] x)).image
        fun i => (step a c (2 ^ k))^[i] x := by
    conv_lhs => rw [← himage, Finset.filter_image]
  rw [hfilter, Finset.card_image_of_injOn (hinj.mono fun i hi => ?_)]
  exact Finset.mem_of_mem_filter i hi

end Lcg
