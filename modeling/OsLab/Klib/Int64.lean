import Mathlib.Algebra.Order.Group.Nat
import Mathlib.Data.Nat.Log
import Mathlib.Tactic.Common
import Mathlib.Tactic.Ring
import OsLab.Lib.Words

/-! # The division of 64-bit words (`klib/src/int64.c`)

A machine with words of 32 bits divides words of 64 bits by these functions. `__udivmoddi4` treats
the operands with an empty half by themselves, and divides the others bit by bit; the number of
bits comes from the places of the top bits of the two operands (`__builtin_clz`, which is
`__clzsi2` where there is no instruction for it). A division by zero faults: the functions answer
`none` there.
-/

namespace OsLab.DoubleWord

/-! ## Counting zeros -/

/-- The value of a comparison. -/
def ofBool (b : Bool) : UInt32 := if b then 1 else 0

/-- `t = ((x & mask) == 0) << k; x >>= (1 << k) - t; r += t;` of `__clzsi2`, with `x` and `r`. -/
def clzStage (mask k : UInt32) (s : UInt32 × UInt32) : UInt32 × UInt32 :=
  let t := ofBool (s.1 &&& mask == 0) <<< k
  (s.1 >>> (((1 : UInt32) <<< k) - t), s.2 + t)

/-- `__clzsi2`. -/
def clzsi2 (a : UInt32) : UInt32 :=
  let s := clzStage 0xC 1 (clzStage 0xF0 2 (clzStage 0xFF00 3 (clzStage 0xFFFF0000 4 (a, 0))))
  s.2 + ((2 - s.1) &&& -ofBool (s.1 &&& 2 == 0))

/-- `t = ((x & mask) == 0) << k; x >>= t; r += t;` of `__ctzsi2`. -/
def ctzStage (mask k : UInt32) (s : UInt32 × UInt32) : UInt32 × UInt32 :=
  let t := ofBool (s.1 &&& mask == 0) <<< k
  (s.1 >>> t, s.2 + t)

/-- `__ctzsi2`. -/
def ctzsi2 (a : UInt32) : UInt32 :=
  let s := ctzStage 0x3 1 (ctzStage 0x0F 2 (ctzStage 0x00FF 3 (ctzStage 0x0000FFFF 4 (a, 0))))
  let x := s.1 &&& 3
  s.2 + (((2 : UInt32) - (x >>> 1)) &&& -ofBool (x &&& 1 == 0))

/-- `udwords`, the two halves of a word. -/
structure Udwords where
  low : UInt32
  high : UInt32

namespace Udwords

/-- A word that was stored in the member `all`. -/
def ofAll (a : UInt64) : Udwords := ⟨a.toUInt32, (a >>> 32).toUInt32⟩

/-- The member `all`. -/
def all (x : Udwords) : UInt64 := x.high.toUInt64 <<< 32 ||| x.low.toUInt64

end Udwords

/-- `__ctzdi2`. -/
def ctzdi2 (a : UInt64) : UInt32 :=
  let x := Udwords.ofAll a
  let f := -ofBool (x.low == 0)
  ctzsi2 ((x.high &&& f) ||| (x.low &&& ~~~f)) + (f &&& 32)

/-- `__clzdi2`. -/
def clzdi2 (a : UInt64) : UInt32 :=
  let x := Udwords.ofAll a
  let f := -ofBool (x.high == 0)
  clzsi2 ((x.high &&& ~~~f) ||| (x.low &&& f)) + (f &&& 32)

/-! ## The division -/

/-- `/` and `%` of words of 32 bits. -/
def udivmodsi (n d : UInt32) : Option (UInt64 × UInt64) :=
  if d = 0 then none else some ((n / d).toUInt64, (n % d).toUInt64)

/-- What the loop works on: `q`, `r` and `carry`. -/
structure Division where
  q : Udwords
  r : Udwords
  carry : UInt32

/-- The body of the loop. -/
def divStep (d : Udwords) (s : Division) : Division :=
  let r : Udwords :=
    { high := (s.r.high <<< 1) ||| (s.r.low >>> 31)
      low := (s.r.low <<< 1) ||| (s.q.high >>> 31) }
  let q : Udwords :=
    { high := (s.q.high <<< 1) ||| (s.q.low >>> 31)
      low := (s.q.low <<< 1) ||| s.carry }
  let sign := ((d.all - r.all - 1).toInt64 >>> 63).toUInt64
  { q := q
    r := .ofAll (r.all - (d.all &&& sign))
    carry := (sign &&& 1).toUInt32 }

/-- `for (; sr > 0; --sr)`. -/
def divLoop (d : Udwords) : ℕ → Division → Division
  | 0, s => s
  | sr + 1, s => divLoop d sr (divStep d s)

/-- From the loop to the end. -/
def longDivision (d : Udwords) (sr : UInt32) (qr : Udwords × Udwords) : UInt64 × UInt64 :=
  let s := divLoop d sr.toNat ⟨qr.1, qr.2, 0⟩
  ((s.q.all <<< 1) ||| s.carry.toUInt64, s.r.all)

/-- `q` and `r` for `sr < n_uword_bits`. -/
def splitBelow (n : Udwords) (sr : UInt32) : Udwords × Udwords :=
  ({ low := 0, high := n.low <<< (32 - sr) },
    { high := n.high >>> sr, low := (n.high <<< (32 - sr)) ||| (n.low >>> sr) })

/-- `q` and `r` for `sr == n_uword_bits`. -/
def splitAt (n : Udwords) : Udwords × Udwords :=
  ({ low := 0, high := n.low }, { high := 0, low := n.high })

/-- `q` and `r` for `sr > n_uword_bits`. -/
def splitAbove (n : Udwords) (sr : UInt32) : Udwords × Udwords :=
  ({ low := n.low <<< (64 - sr), high := (n.high <<< (64 - sr)) ||| (n.low >>> (sr - 32)) },
    { high := 0, low := n.high >>> (sr - 32) })

/-- `__udivmoddi4`: the quotient, and what it stores in `*rem`. -/
def udivmoddi4 (a b : UInt64) : Option (UInt64 × UInt64) :=
  let n := Udwords.ofAll a
  let d := Udwords.ofAll b
  if n.high = 0 then
    if d.high = 0 then udivmodsi n.low d.low
    else some (0, n.low.toUInt64)
  else if d.low = 0 then
    if d.high = 0 then udivmodsi n.high d.low
    else if n.low = 0 then
      some ((n.high / d.high).toUInt64, Udwords.all { high := n.high % d.high, low := 0 })
    else if d.high &&& (d.high - 1) = 0 then
      some ((n.high >>> ctzsi2 d.high).toUInt64,
        Udwords.all { low := n.low, high := n.high &&& (d.high - 1) })
    else
      let sr := clzsi2 d.high - clzsi2 n.high
      if sr > 32 - 2 then some (0, n.all)
      else some (longDivision d (sr + 1) (splitBelow n (sr + 1)))
  else if d.high = 0 then
    if d.low &&& (d.low - 1) = 0 then
      let sr := ctzsi2 d.low
      some (if d.low = 1 then n.all else
        Udwords.all
          { high := n.high >>> sr, low := (n.high <<< (32 - sr)) ||| (n.low >>> sr) },
        (n.low &&& (d.low - 1)).toUInt64)
    else
      let sr := 1 + 32 + clzsi2 d.low - clzsi2 n.high
      some (longDivision d sr
        (if sr = 32 then splitAt n else if sr < 32 then splitBelow n sr else splitAbove n sr))
  else
    let sr := clzsi2 d.high - clzsi2 n.high
    if sr > 32 - 1 then some (0, n.all)
    else some (longDivision d (sr + 1)
      (if sr + 1 = 32 then splitAt n else splitBelow n (sr + 1)))

/-- `__udivdi3`. -/
def udivdi3 (a b : UInt64) : Option UInt64 := (udivmoddi4 a b).map Prod.fst

/-- `__umoddi3`. -/
def umoddi3 (a b : UInt64) : Option UInt64 := (udivmoddi4 a b).map Prod.snd

/-- `(a ^ s) - s`: negated if `s == -1`. -/
def negateIf (s a : UInt64) : UInt64 := (a ^^^ s) - s

/-- `s = a >> bits_in_dword_m1`. -/
def signOf (a : Int64) : UInt64 := (a >>> 63).toUInt64

/-- `__divdi3`. -/
def divdi3 (a b : Int64) : Option Int64 :=
  (udivdi3 (negateIf (signOf a) a.toUInt64) (negateIf (signOf b) b.toUInt64)).map fun q =>
    (negateIf (signOf a ^^^ signOf b) q).toInt64

/-- `__moddi3`. -/
def moddi3 (a b : Int64) : Option Int64 :=
  (umoddi3 (negateIf (signOf a) a.toUInt64) (negateIf (signOf b) b.toUInt64)).map fun r =>
    (negateIf (signOf a) r).toInt64

/-- `__divmoddi4`: the quotient, and what it stores in `*rem`. -/
def divmoddi4 (a b : Int64) : Option (Int64 × Int64) :=
  (divdi3 a b).map fun d => (d, a - d * b)

/-! ## The counts are right -/

theorem toNat_ofBool_shiftLeft (b : Bool) {k : UInt32} (hk : k.toNat < 5) :
    (ofBool b <<< k).toNat = if b then 2 ^ k.toNat else 0 := by
  have hlt : 2 ^ k.toNat < 2 ^ 32 := Nat.pow_lt_pow_right (by decide) (by omega)
  cases b with
  | false =>
      rw [UInt32.toNat_shiftLeft]
      simp [ofBool]
  | true =>
      rw [UInt32.toNat_shiftLeft, Nat.mod_eq_of_lt (Nat.lt_of_lt_of_le hk (by decide))]
      have hone : (ofBool true).toNat = 1 := rfl
      rw [hone, Nat.one_shiftLeft, Nat.mod_eq_of_lt hlt, if_pos rfl]

theorem toNat_shiftRight (x : UInt32) {t : UInt32} (ht : t.toNat < 32) :
    (x >>> t).toNat = x.toNat / 2 ^ t.toNat := by
  rw [UInt32.toNat_shiftRight, Nat.mod_eq_of_lt ht, Nat.shiftRight_eq_div_pow]

theorem toNat_shiftLeft (x : UInt32) {t : UInt32} (ht : t.toNat < 32) :
    (x <<< t).toNat = x.toNat * 2 ^ t.toNat % 2 ^ 32 := by
  rw [UInt32.toNat_shiftLeft, Nat.mod_eq_of_lt ht, Nat.shiftLeft_eq]

theorem and_beq_zero (x mask : UInt32) :
    (x &&& mask == 0) = decide (x.toNat &&& mask.toNat = 0) := by
  rw [Bool.eq_iff_iff, beq_iff_eq, decide_eq_true_iff, ← UInt32.toNat_and, ← UInt32.toNat_inj]
  rfl

/-- What is left of `L` leading zeros: `r` are counted, and `x` has the others among `w` bits. -/
structure Leading (L w : ℕ) (s : UInt32 × UInt32) : Prop where
  ne : s.1.toNat ≠ 0
  lt : s.1.toNat < 2 ^ w
  le : L < 32
  eq : L + s.1.toNat.log2 + 1 = s.2.toNat + w

theorem Leading.counted_le {L w : ℕ} {s : UInt32 × UInt32} (h : Leading L w s) :
    s.2.toNat ≤ L := by
  have heq := h.eq
  have hlog := (Nat.log2_lt h.ne).2 h.lt
  omega

theorem log2_div_two_pow {x k : ℕ} (h : 2 ^ k ≤ x) : (x / 2 ^ k).log2 + k = x.log2 := by
  have hx : x ≠ 0 := Nat.ne_of_gt (Nat.lt_of_lt_of_le (Nat.two_pow_pos k) h)
  have hle : k ≤ x.log2 := (Nat.le_log2 hx).2 h
  rw [Nat.log2_eq_log_two, Nat.log2_eq_log_two, Nat.log_div_base_pow]
  rw [Nat.log2_eq_log_two] at hle
  omega

/-- A mask of the upper half sees whether there is something in it. -/
theorem and_upper_half {x k mask : ℕ} (hx : x < 2 ^ (2 * k)) (hmask : mask = (2 ^ k - 1) * 2 ^ k) :
    x &&& mask = 0 ↔ x < 2 ^ k := by
  have hpow := Nat.two_pow_pos k
  have hhigh : (x &&& mask) / 2 ^ k = x / 2 ^ k := by
    have hdiv : x / 2 ^ k < 2 ^ k := Nat.div_lt_of_lt_mul (by rwa [← pow_add, ← two_mul])
    rw [Nat.and_div_two_pow, hmask, Nat.mul_div_cancel _ hpow, Nat.and_two_pow_sub_one_eq_mod,
      Nat.mod_eq_of_lt hdiv]
  have hlow : (x &&& mask) % 2 ^ k = 0 := by
    rw [Nat.and_mod_two_pow, hmask, Nat.mul_mod_left, Nat.and_zero]
  constructor
  · intro h
    rw [h, Nat.zero_div] at hhigh
    exact (Nat.div_eq_zero_iff_lt hpow).1 hhigh.symm
  · intro h
    rw [Nat.div_eq_of_lt h] at hhigh
    have := Nat.div_add_mod (x &&& mask) (2 ^ k)
    rw [hhigh, hlow] at this
    exact this.symm

/-- A stage halves the bits that are looked at. -/
theorem clzStage_leading {L : ℕ} (mask k : UInt32) {s : UInt32 × UInt32} (hk : k.toNat < 5)
    (hmask : mask.toNat = (2 ^ 2 ^ k.toNat - 1) * 2 ^ 2 ^ k.toNat)
    (h : Leading L (2 * 2 ^ k.toNat) s) : Leading L (2 ^ k.toNat) (clzStage mask k s) := by
  have hcount := h.counted_le
  obtain ⟨hne, hlt, hle, heq⟩ := h
  have hhalf : 2 ^ k.toNat ≤ 16 := Nat.pow_le_pow_right (n := 2) (by decide) (by omega : _ ≤ 4)
  have hone : ((1 : UInt32) <<< k).toNat = 2 ^ k.toNat := toNat_ofBool_shiftLeft true hk
  have htest : (s.1 &&& mask == 0) = decide (s.1.toNat < 2 ^ 2 ^ k.toNat) := by
    rw [and_beq_zero]
    exact decide_eq_decide.2 (and_upper_half hlt hmask)
  have ht : (ofBool (s.1 &&& mask == 0) <<< k).toNat =
      if s.1.toNat < 2 ^ 2 ^ k.toNat then 2 ^ k.toNat else 0 := by
    rw [toNat_ofBool_shiftLeft _ hk, htest]
    simp only [decide_eq_true_iff]
  unfold clzStage
  generalize ofBool (s.1 &&& mask == 0) <<< k = t at ht
  by_cases hsmall : s.1.toNat < 2 ^ 2 ^ k.toNat
  · rw [if_pos hsmall] at ht
    have hshift : (((1 : UInt32) <<< k) - t).toNat = 0 := by
      rw [UInt32.toNat_sub, hone, ht]
      omega
    have hx : (s.1 >>> (((1 : UInt32) <<< k) - t)).toNat = s.1.toNat := by
      rw [toNat_shiftRight _ (by omega), hshift, pow_zero, Nat.div_one]
    have hr : (s.2 + t).toNat = s.2.toNat + 2 ^ k.toNat := by
      rw [UInt32.toNat_add, ht, Nat.mod_eq_of_lt (by omega)]
    exact ⟨by rwa [hx], by rwa [hx], hle, by rw [hx, hr]; omega⟩
  · rw [if_neg hsmall] at ht
    have hge : 2 ^ 2 ^ k.toNat ≤ s.1.toNat := Nat.le_of_not_lt hsmall
    have hshift : (((1 : UInt32) <<< k) - t).toNat = 2 ^ k.toNat := by
      rw [UInt32.toNat_sub, hone, ht]
      omega
    have hx : (s.1 >>> (((1 : UInt32) <<< k) - t)).toNat = s.1.toNat / 2 ^ 2 ^ k.toNat := by
      rw [toNat_shiftRight _ (by omega), hshift]
    have hr : (s.2 + t).toNat = s.2.toNat := by
      rw [UInt32.toNat_add, ht, Nat.mod_eq_of_lt (by omega), Nat.add_zero]
    have hlog := log2_div_two_pow hge
    refine ⟨?_, ?_, hle, ?_⟩
    · rw [hx]
      exact Nat.ne_of_gt (Nat.div_pos hge (Nat.two_pow_pos _))
    · rw [hx]
      exact Nat.div_lt_of_lt_mul (by rwa [← pow_add, ← two_mul])
    · rw [hx, hr]
      omega

/-- Two bits are left at the end. -/
theorem Leading.last {L : ℕ} {s : UInt32 × UInt32} (h : Leading L 2 s) :
    (s.2 + ((2 - s.1) &&& -ofBool (s.1 &&& 2 == 0))).toNat = L := by
  obtain ⟨hne, hlt, hle, heq⟩ := h
  have hcases : s.1.toNat = 1 ∨ s.1.toNat = 2 ∨ s.1.toNat = 3 := by omega
  rcases hcases with hx | hx | hx
  · have hs : s.1 = 1 := UInt32.toNat_inj.1 hx
    have hlog : Nat.log2 1 = 0 := by decide
    have hval : ((2 - s.1) &&& -ofBool (s.1 &&& 2 == 0)).toNat = 1 := by rw [hs]; rfl
    rw [hx, hlog] at heq
    rw [UInt32.toNat_add, hval]
    omega
  · have hs : s.1 = 2 := UInt32.toNat_inj.1 hx
    have hlog : Nat.log2 2 = 1 := by decide
    have hval : ((2 - s.1) &&& -ofBool (s.1 &&& 2 == 0)).toNat = 0 := by rw [hs]; rfl
    rw [hx, hlog] at heq
    rw [UInt32.toNat_add, hval]
    omega
  · have hs : s.1 = 3 := UInt32.toNat_inj.1 hx
    have hlog : Nat.log2 3 = 1 := by decide
    have hval : ((2 - s.1) &&& -ofBool (s.1 &&& 2 == 0)).toNat = 0 := by rw [hs]; rfl
    rw [hx, hlog] at heq
    rw [UInt32.toNat_add, hval]
    omega

theorem clzsi2_add_log2 {a : UInt32} (ha : a ≠ 0) : (clzsi2 a).toNat + a.toNat.log2 = 31 := by
  have hne : a.toNat ≠ 0 := fun h => ha (UInt32.toNat_inj.1 h)
  have hlog : a.toNat.log2 < 32 := (Nat.log2_lt hne).2 a.toNat_lt
  have hstart : Leading (31 - a.toNat.log2) 32 (a, 0) :=
    ⟨hne, a.toNat_lt, by omega, by show _ = 0 + 32; simp only; omega⟩
  have h4 := clzStage_leading 0xFFFF0000 4 (by decide) (by decide) hstart
  have h3 := clzStage_leading 0xFF00 3 (by decide) (by decide) h4
  have h2 := clzStage_leading 0xF0 2 (by decide) (by decide) h3
  have h1 := clzStage_leading 0xC 1 (by decide) (by decide) h2
  have hlast : (clzsi2 a).toNat = 31 - a.toNat.log2 := h1.last
  omega

/-- What is found of the trailing zeros of `a`: `r` are counted, and `x` is what is above them, with
a bit among its low `w`. -/
structure Trailing (a w : ℕ) (s : UInt32 × UInt32) : Prop where
  ndvd : ¬ 2 ^ w ∣ s.1.toNat
  le : s.2.toNat + w ≤ 32
  eq : a = 2 ^ s.2.toNat * s.1.toNat

theorem ctzStage_trailing {a : ℕ} (mask k : UInt32) {s : UInt32 × UInt32} (hk : k.toNat < 5)
    (hmask : mask.toNat = 2 ^ 2 ^ k.toNat - 1) (h : Trailing a (2 * 2 ^ k.toNat) s) :
    Trailing a (2 ^ k.toNat) (ctzStage mask k s) := by
  obtain ⟨hndvd, hle, heq⟩ := h
  have hhalf : 2 ^ k.toNat ≤ 16 := Nat.pow_le_pow_right (n := 2) (by decide) (by omega : _ ≤ 4)
  have htest : (s.1 &&& mask == 0) = decide (2 ^ 2 ^ k.toNat ∣ s.1.toNat) := by
    rw [and_beq_zero, hmask, Nat.and_two_pow_sub_one_eq_mod]
    exact decide_eq_decide.2 Nat.dvd_iff_mod_eq_zero.symm
  have ht : (ofBool (s.1 &&& mask == 0) <<< k).toNat =
      if 2 ^ 2 ^ k.toNat ∣ s.1.toNat then 2 ^ k.toNat else 0 := by
    rw [toNat_ofBool_shiftLeft _ hk, htest]
    simp only [decide_eq_true_iff]
  unfold ctzStage
  generalize ofBool (s.1 &&& mask == 0) <<< k = t at ht
  by_cases hdvd : 2 ^ 2 ^ k.toNat ∣ s.1.toNat
  · rw [if_pos hdvd] at ht
    rcases hdvd with ⟨m, hm⟩
    have hx : (s.1 >>> t).toNat = m := by
      rw [toNat_shiftRight _ (by omega), ht, hm, Nat.mul_div_cancel_left _ (Nat.two_pow_pos _)]
    have hr : (s.2 + t).toNat = s.2.toNat + 2 ^ k.toNat := by
      rw [UInt32.toNat_add, ht, Nat.mod_eq_of_lt (by omega)]
    refine ⟨?_, ?_, ?_⟩
    · rw [hx]
      intro hm'
      refine hndvd ?_
      rw [hm, two_mul, pow_add]
      exact Nat.mul_dvd_mul_left _ hm'
    · rw [hr]
      omega
    · rw [hx, hr, pow_add, Nat.mul_assoc, ← hm]
      exact heq
  · rw [if_neg hdvd] at ht
    have hx : (s.1 >>> t).toNat = s.1.toNat := by
      rw [toNat_shiftRight _ (by omega), ht, pow_zero, Nat.div_one]
    have hr : (s.2 + t).toNat = s.2.toNat := by
      rw [UInt32.toNat_add, ht, Nat.mod_eq_of_lt (by omega), Nat.add_zero]
    refine ⟨?_, ?_, ?_⟩
    · rwa [hx]
    · rw [hr]
      omega
    · rw [hx, hr]
      exact heq

/-- Two bits are left at the end. -/
theorem Trailing.last {a : ℕ} {s : UInt32 × UInt32} (h : Trailing a 2 s) {c : UInt32}
    (hc : c = s.2 + (((2 : UInt32) - ((s.1 &&& 3) >>> 1)) &&& -ofBool (s.1 &&& 3 &&& 1 == 0))) :
    c.toNat < 32 ∧ ∃ m, a = 2 ^ c.toNat * (2 * m + 1) := by
  obtain ⟨hndvd, hle, heq⟩ := h
  have hlow : (s.1 &&& 3).toNat = s.1.toNat % 4 := by
    rw [UInt32.toNat_and]
    exact Nat.and_two_pow_sub_one_eq_mod _ 2
  rw [Nat.dvd_iff_mod_eq_zero] at hndvd
  generalize s.1 &&& 3 = x at hlow hc
  have hcases : s.1.toNat % 4 = 1 ∨ s.1.toNat % 4 = 2 ∨ s.1.toNat % 4 = 3 := by omega
  rcases hcases with hx | hx | hx
  · have hxs : x = 1 := UInt32.toNat_inj.1 (hlow.trans hx)
    have hcs : c = s.2 := by rw [hc, hxs]; exact UInt32.add_zero _
    exact ⟨by rw [hcs]; omega, s.1.toNat / 2, by rw [heq, hcs]; congr 1; omega⟩
  · have hxs : x = 2 := UInt32.toNat_inj.1 (hlow.trans hx)
    have hcs : c.toNat = s.2.toNat + 1 := by
      have hval : (((2 : UInt32) - (x >>> 1)) &&& -ofBool (x &&& 1 == 0)).toNat = 1 := by
        rw [hxs]
        rfl
      rw [hc, UInt32.toNat_add, hval]
      omega
    refine ⟨by omega, s.1.toNat / 4, ?_⟩
    rw [heq, hcs, pow_succ, Nat.mul_assoc]
    congr 1
    omega
  · have hxs : x = 3 := UInt32.toNat_inj.1 (hlow.trans hx)
    have hcs : c = s.2 := by rw [hc, hxs]; exact UInt32.add_zero _
    exact ⟨by rw [hcs]; omega, s.1.toNat / 2, by rw [heq, hcs]; congr 1; omega⟩

theorem ctzsi2_spec {a : UInt32} (ha : a ≠ 0) :
    (ctzsi2 a).toNat < 32 ∧ ∃ m, a.toNat = 2 ^ (ctzsi2 a).toNat * (2 * m + 1) := by
  have hne : a.toNat ≠ 0 := fun h => ha (UInt32.toNat_inj.1 h)
  have hstart : Trailing a.toNat 32 (a, 0) := by
    refine ⟨fun hdvd => ?_, Nat.le_refl 32, by show _ = 2 ^ 0 * _; simp⟩
    exact absurd (Nat.le_of_dvd (Nat.pos_of_ne_zero hne) hdvd) (Nat.not_le_of_lt a.toNat_lt)
  have h4 := ctzStage_trailing 0x0000FFFF 4 (by decide) (by decide) hstart
  have h3 := ctzStage_trailing 0x00FF 3 (by decide) (by decide) h4
  have h2 := ctzStage_trailing 0x0F 2 (by decide) (by decide) h3
  have h1 := ctzStage_trailing 0x3 1 (by decide) (by decide) h2
  exact h1.last rfl

end OsLab.DoubleWord
