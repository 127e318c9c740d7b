import OsLab.Klib.Sprintf
import OsLab.Lib.Lcg
import Mathlib.Order.Interval.Finset.Nat

/-! # The rest of the C library of the kernel (`klib/src/stdlib.c`)

`rand` is a linear congruential generator with a state of 64 bits, of which it shows the bits 16 to
30. `atoi` reads back what `sprintf` writes; its sums are of type `int`, and a sum that overflows is
a fault, also when the zero digit that is taken off afterwards would make up for it.
-/

namespace OsLab

open Numeral

/-! ## Random numbers -/

/-- `rand`, on the state `next`. -/
def rand (next : UInt64) : UInt32 × UInt64 :=
  let next := next * 1103515245 + 12345
  ((next / 65536).toUInt32 % 32768, next)

/-- `srand`: the state it sets. -/
def srand (seed : UInt32) : UInt64 := seed.toUInt64

/-- The state after `n` calls of `rand`. -/
def randState (next : UInt64) (n : ℕ) : UInt64 := (fun s => (rand s).2)^[n] next

/-- The answer of the call after `n` others. -/
def randAt (next : UInt64) (n : ℕ) : UInt32 := (rand (randState next n)).1

theorem randState_succ (next : UInt64) (n : ℕ) :
    randState next (n + 1) = randState next n * 1103515245 + 12345 :=
  Function.iterate_succ_apply' _ n next

theorem randAt_eq (next : UInt64) (n : ℕ) :
    randAt next n = (randState next (n + 1) / 65536).toUInt32 % 32768 := by
  rw [randState_succ]
  rfl

/-- Only the low 31 bits of the state matter, and they are a generator of their own. -/
theorem randState_mod (next : UInt64) (n : ℕ) : (randState next n).toNat % 2 ^ 31 =
    (Lcg.step 1103515245 12345 (2 ^ 31))^[n] (next.toNat % 2 ^ 31) := by
  induction n with
  | zero => rfl
  | succ n ih =>
      rw [Function.iterate_succ_apply', ← ih, Lcg.step, randState_succ]
      simp only [UInt64.toNat_add, UInt64.toNat_mul, UInt64.reduceToNat]
      omega

theorem randAt_toNat (next : UInt64) (n : ℕ) :
    (randAt next n).toNat = (randState next (n + 1)).toNat % 2 ^ 31 / 65536 := by
  rw [randAt_eq]
  simp only [UInt32.toNat_mod, UInt64.toNat_toUInt32, UInt64.toNat_div, UInt64.reduceToNat,
    UInt32.reduceToNat]
  omega

/-- From every seed: the numbers repeat after `2 ^ 31` calls, and until then each of the 32768
numbers has come `2 ^ 16` times. -/
theorem rand_uniform (next : UInt64) :
    (∀ n, randAt next (n + 2 ^ 31) = randAt next n) ∧
    ∀ v : Fin 32768, ((Finset.range (2 ^ 31)).filter fun n => (randAt next n).toNat = v).card =
      2 ^ 16 := by
  have ha : 1103515245 % 4 = 1 := by decide
  have hc : 12345 % 2 = 1 := by decide
  have hlt : ∀ m, m % 2 ^ 31 < 2 ^ 31 := fun m => Nat.mod_lt m (Nat.two_pow_pos 31)
  have hstate : ∀ n, (randAt next n).toNat =
      (Lcg.step 1103515245 12345 (2 ^ 31))^[n] ((randState next 1).toNat % 2 ^ 31) / 65536 := by
    intro n
    rw [randAt_toNat, randState_mod, randState_mod, ← Function.iterate_add_apply]
  refine ⟨fun n => UInt32.toNat.inj ?_, fun v => ?_⟩
  · rw [hstate, hstate, Function.iterate_add_apply, Lcg.iterate_period ha (hlt _)]
  · simp only [hstate]
    rw [Lcg.card_filter_iterate ha hc (hlt _) fun x => x / 65536 = v]
    -- the remainders with these high bits
    have hinterval : (Finset.range (2 ^ 31)).filter (fun x => x / 65536 = (v : ℕ)) =
        Finset.Ico ((v : ℕ) * 65536) ((v : ℕ) * 65536 + 65536) := by
      have hv := v.isLt
      ext x
      rw [Finset.mem_filter, Finset.mem_range, Finset.mem_Ico]
      omega
    rw [hinterval, Nat.card_Ico]
    omega

/-! ## Numbers from text -/

/-- `while (*nptr == ' ') { nptr ++; }`, with `left` addresses up to the end of the memory. -/
def skipSpaces (m : ByteMem) : ℕ → ℕ → Option ℕ
  | 0, _ => none
  | left + 1, nptr =>
      if m.Inside nptr 1 then
        if m.byte nptr = ' '.toUInt8 then skipSpaces m left (nptr + 1) else some nptr
      else none

/-- The loop over the digits. A `char` from 128 on is negative, and no digit either way. -/
def readDigits (m : ByteMem) : ℕ → ℕ → ℕ → Option ℕ
  | 0, _, _ => none
  | left + 1, nptr, x =>
      if m.Inside nptr 1 then
        let b := m.byte nptr
        if '0'.toUInt8 ≤ b ∧ b ≤ '9'.toUInt8 then
          -- `x * 10 + *nptr` is an `int`
          if x * 10 + b.toNat < 2 ^ 31 then readDigits m left (nptr + 1) (x * 10 + b.toNat - 48)
          else none
        else some x
      else none

/-- `atoi`. -/
def atoi (m : ByteMem) (nptr : ℕ) : Option ℕ :=
  (skipSpaces m (m.stop - nptr) nptr).bind fun nptr => readDigits m (m.stop - nptr) nptr 0

/-- The value of a decimal digit. -/
def decimalValue (b : UInt8) : Option ℕ :=
  if '0'.toUInt8 ≤ b ∧ b ≤ '9'.toUInt8 then some (b.toNat - 48) else none

theorem decimalValue_digitByte {d : ℕ} (h : d < 10) : decimalValue (digitByte d) = some d := by
  interval_cases d <;> decide

/-- A decimal digit, and what it is worth. -/
theorem decimalValue_eq_some {b : UInt8} {d : ℕ} (h : decimalValue b = some d) :
    ('0'.toUInt8 ≤ b ∧ b ≤ '9'.toUInt8) ∧ b.toNat = d + 48 := by
  unfold decimalValue at h
  split at h
  · rename_i hb
    have h48 : 48 ≤ b.toNat := hb.1
    cases h
    exact ⟨hb, by omega⟩
  · cases h

/-- A decimal numeral read back. -/
theorem eval_decimal (n : ℕ) : eval decimalValue 10 (decimal n) = some n := by
  unfold decimal
  split
  · rename_i hn
    rw [hn]
    rfl
  · rw [← padded_zero]
    exact eval_padded digitByte (by decide) (fun d hd => decimalValue_digitByte hd) n 0

theorem le_of_foldlM {l : List UInt8} {x n : ℕ}
    (h : l.foldlM (fun n c => (decimalValue c).map fun d => 10 * n + d) x = some n) : x ≤ n := by
  induction l generalizing x with
  | nil => exact (Option.some.inj h).le
  | cons b l ih =>
      rw [List.foldlM_cons] at h
      obtain ⟨y, hy, h⟩ := Option.bind_eq_some_iff.1 h
      obtain ⟨d, -, rfl⟩ := Option.map_eq_some_iff.1 hy
      have := ih h
      omega

/-- The digits are read one by one; the last sum is the largest. -/
theorem readDigits_eq {m : ByteMem} {l : List UInt8} {b : UInt8} {left nptr x n : ℕ}
    (hl : l.foldlM (fun n c => (decimalValue c).map fun d => 10 * n + d) x = some n)
    (hx : x + 48 < 2 ^ 31 ∨ l ≠ []) (hm : m.Holds nptr (l ++ [b])) (hb : decimalValue b = none)
    (hleft : l.length < left) :
    readDigits m left nptr x = if n + 48 < 2 ^ 31 then some n else none := by
  induction l generalizing left nptr x with
  | nil =>
      obtain rfl : x = n := Option.some.inj hl
      obtain ⟨hin, hbyte, -⟩ := hm
      have hdigit : ¬ ('0'.toUInt8 ≤ b ∧ b ≤ '9'.toUInt8) := by
        intro h
        rw [decimalValue, if_pos h] at hb
        cases hb
      cases left with
      | zero => exact absurd hleft (Nat.not_lt_zero _)
      | succ left =>
          rw [readDigits, if_pos hin, hbyte]
          simp only
          rw [if_neg hdigit, if_pos (hx.resolve_right fun h => h rfl)]
  | cons c l ih =>
      obtain ⟨hin, hbyte, hrest⟩ := hm
      rw [List.foldlM_cons] at hl
      obtain ⟨y, hy, hl⟩ := Option.bind_eq_some_iff.1 hl
      obtain ⟨d, hd, rfl⟩ := Option.map_eq_some_iff.1 hy
      obtain ⟨hdigit, hval⟩ := decimalValue_eq_some hd
      have hle := le_of_foldlM hl
      cases left with
      | zero => exact absurd hleft (Nat.not_lt_zero _)
      | succ left =>
          rw [readDigits, if_pos hin, hbyte]
          simp only
          rw [if_pos hdigit, hval]
          -- the sums only grow, so one that overflows now would do so at the end
          by_cases hfit : x * 10 + (d + 48) < 2 ^ 31
          · have hnext : x * 10 + (d + 48) - 48 = 10 * x + d := by omega
            rw [if_pos hfit, hnext]
            exact ih hl (Or.inl (by omega)) hrest (Nat.lt_of_succ_lt_succ hleft)
          · rw [if_neg hfit, if_neg (by omega)]

theorem skipSpaces_eq {m : ByteMem} {k left nptr : ℕ} {b : UInt8} (hb : b ≠ ' '.toUInt8)
    (hm : m.Holds nptr (List.replicate k ' '.toUInt8 ++ [b])) (hleft : k < left) :
    skipSpaces m left nptr = some (nptr + k) := by
  induction k generalizing left nptr with
  | zero =>
      obtain ⟨hin, hbyte, -⟩ := hm
      cases left with
      | zero => exact absurd hleft (Nat.not_lt_zero _)
      | succ left => rw [skipSpaces, if_pos hin, hbyte, if_neg hb]; rfl
  | succ k ih =>
      obtain ⟨hin, hbyte, hrest⟩ := hm
      cases left with
      | zero => exact absurd hleft (Nat.not_lt_zero _)
      | succ left =>
          rw [skipSpaces, if_pos hin, hbyte, if_pos rfl, ih hrest (Nat.lt_of_succ_lt_succ hleft)]
          congr 1
          omega

/-- `atoi` of a text of blanks, a decimal numeral and a character that is no digit. -/
theorem atoi_decimal {m : ByteMem} {p k n : ℕ} {b : UInt8} (hb : decimalValue b = none)
    (hm : m.Holds p (List.replicate k ' '.toUInt8 ++ (decimal n ++ [b]))) :
    atoi m p = if n + 48 < 2 ^ 31 then some n else none := by
  have hnil := decimal_ne_nil n
  have hin := hm.inside (by simp)
  unfold ByteMem.Inside at hin
  simp only [List.length_append, List.length_replicate, List.length_singleton] at hin
  have hpos := List.length_pos_of_ne_nil hnil
  have heval := eval_decimal n
  -- the first character of the numeral ends the blanks
  obtain ⟨c, l, hcons⟩ := List.exists_cons_of_ne_nil hnil
  have hc : c ≠ ' '.toUInt8 := by
    rintro rfl
    rw [hcons, eval, List.foldlM_cons] at heval
    cases heval
  have hspaces : m.Holds p (List.replicate k ' '.toUInt8 ++ [c]) := by
    rw [hcons, List.cons_append, ← List.singleton_append, ← List.append_assoc,
      ByteMem.holds_append] at hm
    exact hm.1
  rw [ByteMem.holds_append, List.length_replicate] at hm
  rw [atoi, skipSpaces_eq hc hspaces (by omega), Option.bind_some]
  exact readDigits_eq heval (Or.inr hnil) hm.2 hb (by omega)

/-- "%d" behind `k` blanks. -/
def blanksAndNumber (k : ℕ) : List UInt8 :=
  List.replicate k ' '.toUInt8 ++ ['%'.toUInt8, 'd'.toUInt8] ++ [0]

theorem length_decimal_le {n : ℕ} (h : n < 2 ^ 32) : (decimal n).length ≤ 10 := by
  unfold decimal
  split
  · exact Nat.le_of_ble_eq_true rfl
  · rw [← padded_zero]
    exact length_padded_le digitByte (by decide) (by omega) (by omega)

/-- `sprintf` of blanks and one number. -/
theorem sprintf_blanksAndNumber {m s : ByteMem} {k : ℕ} (hs : s.stop = s.start + 50)
    (hk : k + 11 < 2 ^ 31) (a : UInt64) :
    sprintf m (blanksAndNumber k) [a] s =
      some (k + (decimal a.toUInt32.toNat).length + 1,
        List.replicate k ' '.toUInt8 ++ decimal a.toUInt32.toNat ++ [0]) := by
  have hcode : (List.replicate k (Piece.lit ' '.toUInt8) ++ [Piece.d a]).flatMap Piece.code =
      List.replicate k ' '.toUInt8 ++ ['%'.toUInt8, 'd'.toUInt8] := by
    rw [List.flatMap_append, List.flatMap_replicate]
    simp [Piece.code]
  have hprinted : (List.replicate k (Piece.lit ' '.toUInt8) ++ [Piece.d a]).flatMap Piece.printed =
      List.replicate k ' '.toUInt8 ++ decimal a.toUInt32.toNat := by
    rw [List.flatMap_append, List.flatMap_replicate, List.flatMap_singleton, Piece.printed,
      Piece.printed, unsignedText_eq]
    simp
  have hargs : (List.replicate k (Piece.lit ' '.toUInt8) ++ [Piece.d a]).flatMap Piece.args =
      [a] := by
    rw [List.flatMap_append, List.flatMap_replicate]
    simp [Piece.args]
  have hok : ∀ x ∈ List.replicate k (Piece.lit ' '.toUInt8) ++ [Piece.d a], x.Ok m := by
    intro x hx
    rcases List.mem_append.1 hx with hx | hx
    · rw [List.eq_of_mem_replicate hx]
      exact ⟨by decide, by decide⟩
    · rw [List.mem_singleton.1 hx]
      trivial
  have hlen := length_decimal_le a.toUInt32.toNat_lt
  have hfit : ((List.replicate k (Piece.lit ' '.toUInt8) ++ [Piece.d a]).flatMap
      Piece.printed).length + 1 < 2 ^ 31 := by
    rw [hprinted, List.length_append, List.length_replicate]
    omega
  have hrun := @vsprintf_complete m s _ [a] hs hok (by rw [hargs]) hfit
  rw [hcode, hprinted, List.length_append, List.length_replicate] at hrun
  exact hrun

/-- `atoi` reads back what `sprintf` writes for %d, behind any number of blanks, exactly if the
number is not negative and the last sum does not overflow. -/
theorem atoi_sprintf {m s : ByteMem} {k : ℕ} (hs : s.stop = s.start + 50) (hk : k + 11 < 2 ^ 31)
    (a : UInt64) :
    ∃ text, sprintf m (blanksAndNumber k) [a] s = some (text.length, text) ∧
      ∀ (m' : ByteMem) (p : ℕ), m'.Holds p text →
        atoi m' p =
          if 0 ≤ intArg a ∧ intArg a + 48 < 2 ^ 31 then some (intArg a).toNat else none := by
  refine ⟨List.replicate k ' '.toUInt8 ++ decimal a.toUInt32.toNat ++ [0], ?_, ?_⟩
  · rw [sprintf_blanksAndNumber hs hk, List.length_append, List.length_append,
      List.length_replicate, List.length_singleton]
  · intro m' p hm
    rw [List.append_assoc] at hm
    rw [atoi_decimal (by decide) hm]
    have hval := intArg_eq a
    have ha := a.toUInt32.toNat_lt
    by_cases hneg : a.toUInt32.toNat < 2 ^ 31
    · rw [if_pos hneg] at hval
      rw [hval, Int.toNat_natCast]
      by_cases hfit : a.toUInt32.toNat + 48 < 2 ^ 31
      · rw [if_pos hfit, if_pos ⟨by omega, by omega⟩]
      · rw [if_neg hfit, if_neg (by omega)]
    · rw [if_neg hneg] at hval
      rw [if_neg (by omega), if_neg (by omega)]

/-- 47 behind two blanks. -/
theorem atoi_sprintf_blanks : ∃ text,
    sprintf emptyString (blanksAndNumber 2) [47] scratch = some (text.length, text) ∧
      atoi ⟨1, 1 + text.length, fun i => text.getD (i - 1) 0⟩ 1 = some 47 := by
  obtain ⟨text, htext, hread⟩ := @atoi_sprintf emptyString scratch 2 rfl (by decide) 47
  refine ⟨text, htext, ?_⟩
  rw [hread _ 1 (ByteMem.holds_iff.2 fun i hi => ⟨⟨by simp, by simp; omega⟩, by simp [hi]⟩)]
  decide

end OsLab
