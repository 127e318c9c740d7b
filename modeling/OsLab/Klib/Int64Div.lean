import OsLab.Klib.Int64
import OsLab.Lib.ShiftSub

/-! # The 64-bit division divides

`__udivmoddi4` finds quotient and remainder of any two words, whichever of its ways it takes, and
the functions on signed words those of the C language.
-/

namespace OsLab.DoubleWord

open ShiftSub

/-! ## Words and their halves -/

namespace Udwords

/-- The number. -/
def val (x : Udwords) : ℕ := x.high.toNat * 2 ^ 32 + x.low.toNat

variable {x n d : Udwords} {a : UInt64}

theorem val_lt (x : Udwords) : x.val < 2 ^ 64 := by
  have hlow := x.low.toNat_lt
  have hhigh := x.high.toNat_lt
  rw [val]
  omega

theorem toNat_all (x : Udwords) : x.all.toNat = x.val := by
  have hlow := x.low.toNat_lt
  have hhigh := x.high.toNat_lt
  have hshift : (x.high.toUInt64 <<< 32).toNat = x.high.toNat * 2 ^ 32 := by
    rw [UInt64.toNat_shiftLeft, UInt32.toNat_toUInt64, Nat.shiftLeft_eq]
    exact Nat.mod_eq_of_lt (show x.high.toNat * 2 ^ 32 < 2 ^ 64 by omega)
  rw [all, UInt64.toNat_or, hshift, UInt32.toNat_toUInt64, Words.or_low (Nat.dvd_mul_left _ _) hlow,
    val]

theorem val_ofAll (a : UInt64) : (ofAll a).val = a.toNat := by
  have ha := a.toNat_lt
  have hhigh : (a >>> 32).toUInt32.toNat = a.toNat / 2 ^ 32 := by
    rw [UInt64.toNat_toUInt32, UInt64.toNat_shiftRight, Nat.shiftRight_eq_div_pow]
    exact Nat.mod_eq_of_lt (show a.toNat / 2 ^ 32 < 2 ^ 32 by omega)
  rw [val, ofAll, hhigh, UInt64.toNat_toUInt32]
  exact Nat.div_add_mod' _ _

/-- A word whose upper half is not empty has its top bit there. -/
theorem log2_val_high (h : x.high ≠ 0) : x.val.log2 = x.high.toNat.log2 + 32 := by
  have hne : x.high.toNat ≠ 0 := fun h0 => h (UInt32.toNat_inj.1 h0)
  have hlow := x.low.toNat_lt
  have hdiv : x.val / 2 ^ 32 = x.high.toNat := by rw [val]; omega
  rw [← hdiv]
  exact (log2_div_two_pow (by rw [val]; omega)).symm

theorem log2_val_low (h : x.high = 0) : x.val.log2 = x.low.toNat.log2 := by
  rw [val, h]
  simp

end Udwords

/-- The two parts of a word that crosses from one half to the other. -/
theorem toNat_funnel (h l : UInt32) {t s : UInt32} (hs : 0 < s.toNat) (ht : 0 < t.toNat)
    (hsum : t.toNat + s.toNat = 32) :
    ((h <<< t) ||| (l >>> s)).toNat =
      h.toNat % 2 ^ s.toNat * 2 ^ t.toNat + l.toNat / 2 ^ s.toNat := by
  have hl := l.toNat_lt
  have hpow : 2 ^ 32 = 2 ^ s.toNat * 2 ^ t.toNat := by rw [← pow_add, Nat.add_comm, hsum]
  have hshift : (h <<< t).toNat = h.toNat % 2 ^ s.toNat * 2 ^ t.toNat := by
    rw [toNat_shiftLeft _ (by omega), hpow, Nat.mul_mod_mul_right]
  have hlt : l.toNat / 2 ^ s.toNat < 2 ^ t.toNat := Nat.div_lt_of_lt_mul (by rwa [← hpow])
  rw [UInt32.toNat_or, hshift, toNat_shiftRight _ (by omega),
    Words.or_low (Nat.dvd_mul_left _ _) hlt]

/-! ## Where the division starts -/

theorem splitBelow_val {n : Udwords} {sr : UInt32} (hpos : 0 < sr.toNat) (hlt : sr.toNat < 32) :
    (splitBelow n sr).1.val = register 64 n.val sr.toNat 0 ∧
      (splitBelow n sr).2.val = n.val / 2 ^ sr.toNat := by
  have hlow := n.low.toNat_lt
  have hsub : (32 - sr).toNat = 32 - sr.toNat := by
    rw [UInt32.toNat_sub]
    show (2 ^ 32 - sr.toNat + 32) % 2 ^ 32 = 32 - sr.toNat
    omega
  have hpow : 2 ^ 32 = 2 ^ sr.toNat * 2 ^ (32 - sr.toNat) := by
    rw [← pow_add]
    congr 1
    omega
  constructor
  · have hhigh : (n.low <<< (32 - sr)).toNat =
        n.low.toNat % 2 ^ sr.toNat * 2 ^ (32 - sr.toNat) := by
      rw [toNat_shiftLeft _ (by omega), hsub, hpow, Nat.mul_mod_mul_right]
    have hmod : n.val % 2 ^ sr.toNat = n.low.toNat % 2 ^ sr.toNat := by
      rw [Udwords.val, hpow, Nat.mul_left_comm, Nat.mul_add_mod]
    have h64 : 64 - sr.toNat = 32 - sr.toNat + 32 := by omega
    rw [splitBelow, Udwords.val, register, hhigh, hmod, h64, pow_add, Nat.mul_assoc]
    rfl
  · have hdiv : n.val / 2 ^ sr.toNat =
        n.high.toNat * 2 ^ (32 - sr.toNat) + n.low.toNat / 2 ^ sr.toNat := by
      rw [Udwords.val, hpow, Nat.mul_left_comm, Nat.mul_add_div (Nat.two_pow_pos _)]
    have hh := Nat.div_add_mod' n.high.toNat (2 ^ sr.toNat)
    rw [splitBelow, Udwords.val, toNat_funnel _ _ hpos (by omega) (by omega),
      toNat_shiftRight _ (by omega), hsub, hdiv]
    rw [hpow]
    conv_rhs => rw [← hh]
    ring

theorem splitAt_val {n : Udwords} :
    (splitAt n).1.val = register 64 n.val 32 0 ∧ (splitAt n).2.val = n.val / 2 ^ 32 := by
  have hlow := n.low.toNat_lt
  constructor
  · have hmod : n.val % 2 ^ 32 = n.low.toNat := by rw [Udwords.val]; omega
    rw [splitAt, Udwords.val, register, hmod]
    rfl
  · have hdiv : n.val / 2 ^ 32 = n.high.toNat := by rw [Udwords.val]; omega
    rw [hdiv]
    simp [splitAt, Udwords.val]

theorem splitAbove_val {n : Udwords} {sr : UInt32} (hgt : 32 < sr.toNat) (hlt : sr.toNat < 64) :
    (splitAbove n sr).1.val = register 64 n.val sr.toNat 0 ∧
      (splitAbove n sr).2.val = n.val / 2 ^ sr.toNat := by
  have hlow := n.low.toNat_lt
  have hsub : (sr - 32).toNat = sr.toNat - 32 := by
    rw [UInt32.toNat_sub]
    show (2 ^ 32 - 32 + sr.toNat) % 2 ^ 32 = sr.toNat - 32
    omega
  have hsub' : (64 - sr).toNat = 64 - sr.toNat := by
    rw [UInt32.toNat_sub]
    show (2 ^ 32 - sr.toNat + 64) % 2 ^ 32 = 64 - sr.toNat
    omega
  obtain ⟨s, hs⟩ : ∃ s, sr.toNat = 32 + s := ⟨sr.toNat - 32, by omega⟩
  have hs0 : 0 < s := by omega
  rw [hs, Nat.add_sub_cancel_left] at hsub
  have hsub'' : (64 - sr).toNat = 32 - s := by omega
  have hpow : 2 ^ 32 = 2 ^ s * 2 ^ (32 - s) := by
    rw [← pow_add]
    congr 1
    omega
  constructor
  · have hlo : (n.low <<< (64 - sr)).toNat = n.low.toNat % 2 ^ s * 2 ^ (32 - s) := by
      rw [toNat_shiftLeft _ (by omega), hsub'', hpow, Nat.mul_mod_mul_right]
    have hmod : n.val % 2 ^ (32 + s) = n.high.toNat % 2 ^ s * 2 ^ 32 + n.low.toNat := by
      rw [Udwords.val, pow_add, Nat.mod_mul, Nat.mul_add_mod_self_right, Nat.mod_eq_of_lt hlow,
        Nat.add_comm (_ * 2 ^ 32), Nat.add_mul_div_right _ _ (Nat.two_pow_pos 32),
        Nat.div_eq_of_lt hlow, Nat.zero_add]
      ring
    have hl := Nat.div_add_mod' n.low.toNat (2 ^ s)
    rw [splitAbove, Udwords.val, toNat_funnel _ _ (by omega) (by omega) (by omega), hlo, hsub,
      hsub'', register, hs, hmod, show 64 - (32 + s) = 32 - s by omega]
    conv_rhs => rw [← hl]
    rw [hpow]
    ring
  · have hdiv : n.val / 2 ^ (32 + s) = n.high.toNat / 2 ^ s := by
      rw [pow_add, ← Nat.div_div_eq_div_mul, Udwords.val, Nat.add_comm,
        Nat.add_mul_div_right _ _ (Nat.two_pow_pos 32), Nat.div_eq_of_lt hlow, Nat.zero_add]
    rw [splitAbove, Udwords.val, toNat_shiftRight _ (by omega), hsub, hs, hdiv, UInt32.toNat_zero,
      Nat.zero_mul, Nat.zero_add]

/-! ## The loop -/

theorem toNat_shl_or (l c : UInt32) (hc : c.toNat < 2) :
    ((l <<< 1) ||| c).toNat = l.toNat * 2 % 2 ^ 32 + c.toNat := by
  have hshift : (l <<< 1).toNat = l.toNat * 2 % 2 ^ 32 := toNat_shiftLeft l (by decide)
  have hdvd : 2 ^ 1 ∣ l.toNat * 2 % 2 ^ 32 := by omega
  rw [UInt32.toNat_or, hshift, Words.or_low hdvd hc]

/-- Both halves moved up by one place, with `c` behind them. -/
theorem val_shl (x : Udwords) {c : UInt32} (hc : c.toNat < 2) :
    Udwords.val { high := (x.high <<< 1) ||| (x.low >>> 31), low := (x.low <<< 1) ||| c } =
      (2 * x.val + c.toNat) % 2 ^ 64 := by
  have hhigh : ((x.high <<< 1) ||| (x.low >>> 31)).toNat =
      x.high.toNat % 2 ^ 31 * 2 ^ 1 + x.low.toNat / 2 ^ 31 :=
    toNat_funnel x.high x.low (by decide) (by decide) (by decide)
  have hl := x.low.toNat_lt
  rw [Udwords.val, hhigh, toNat_shl_or _ _ hc, Udwords.val]
  omega

/-- The top bit. -/
theorem toNat_top (x : Udwords) : (x.high >>> 31).toNat = x.val / 2 ^ 63 := by
  have hl := x.low.toNat_lt
  have hshift : (x.high >>> 31).toNat = x.high.toNat / 2 ^ 31 := toNat_shiftRight _ (by decide)
  rw [hshift, Udwords.val]
  omega

/-- The sign of a word in all of its places. -/
theorem sign_eq (x : UInt64) :
    (x.toInt64 >>> 63).toUInt64 = if 2 ^ 63 ≤ x.toNat then -1 else 0 := by
  have hmsb : x.toBitVec.msb = decide (2 ^ 63 ≤ x.toNat) := BitVec.msb_eq_decide _
  apply UInt64.toBitVec_inj.1
  apply BitVec.eq_of_getLsbD_eq
  intro i hi
  have hshift : (x.toInt64 >>> 63).toUInt64.toBitVec = x.toBitVec.sshiftRight 63 := rfl
  have htop : x.toBitVec.getLsbD 63 = x.toBitVec.msb := (BitVec.msb_eq_getLsbD_last _).symm
  have hbit : (x.toBitVec.sshiftRight 63).getLsbD i = x.toBitVec.msb := by
    rw [BitVec.getLsbD_sshiftRight]
    by_cases hi0 : i = 0
    · subst hi0
      simpa using htop
    · rw [if_neg (by omega), decide_eq_false (by omega)]
      rfl
  rw [hshift, hbit, hmsb]
  by_cases hx : 2 ^ 63 ≤ x.toNat
  · rw [if_pos hx, decide_eq_true hx]
    have hones : (-1 : UInt64).toBitVec = BitVec.allOnes 64 := rfl
    rw [hones, BitVec.getLsbD_allOnes, decide_eq_true hi]
  · rw [if_neg hx, decide_eq_false hx]
    exact BitVec.getLsbD_zero.symm

/-- The comparison by the sign of a difference is right for what the loop compares. -/
theorem sign_sub {d r : UInt64} {P : Prop} [Decidable P] (hP : P ↔ d.toNat ≤ r.toNat)
    (hle : r.toNat < 2 * d.toNat) (hnear : d.toNat ≤ 2 ^ 63 + r.toNat) :
    ((d - r - 1).toInt64 >>> 63).toUInt64 = if P then -1 else 0 := by
  have hd := d.toNat_lt
  have hr := r.toNat_lt
  have hval : (d - r - 1).toNat =
      if d.toNat ≤ r.toNat then 2 ^ 64 - 1 - (r.toNat - d.toNat) else d.toNat - r.toNat - 1 := by
    have h1 : (1 : UInt64).toNat = 1 := rfl
    rw [UInt64.toNat_sub, UInt64.toNat_sub, h1]
    split <;> omega
  rw [sign_eq, hval]
  refine if_congr ?_ rfl rfl
  rw [hP]
  split <;> omega

/-- What the loop keeps with `j` places to go. The last bit of the quotient is in `carry`. -/
structure Loop (n d j Q : ℕ) (s : Division) : Prop where
  part : Partial n d j Q s.r.val
  quotient : s.q.val = register 64 n j (Q / 2)
  carry : s.carry.toNat = Q % 2

/-- The first place that is compared has the top bit of the divisor. -/
def Aligned (n d j : ℕ) : Prop := d ≤ 2 ^ 63 ∨ 2 ^ 63 ≤ n ∧ j ≤ 1

theorem Aligned.near {n d j Q r : ℕ} (h : Aligned n d (j + 1)) (hn : n < 2 ^ 64) (hd : d < 2 ^ 64)
    (hpart : Partial n d (j + 1) Q r) : d ≤ 2 ^ 63 + (2 * r + n / 2 ^ j % 2) := by
  by_cases hsmall : d ≤ 2 ^ 63
  · exact Nat.le_trans hsmall (Nat.le_add_right _ _)
  · obtain ⟨htop, hj⟩ := h.resolve_left hsmall
    have hj0 : j = 0 := by omega
    subst hj0
    have hQ : Q = 0 := by
      have heq := hpart.eq
      by_contra hQ
      have hmul : d ≤ d * Q := Nat.le_mul_of_pos_right d (Nat.pos_of_ne_zero hQ)
      rw [Nat.zero_add, pow_one] at heq
      omega
    have heq := hpart.shifted_eq
    rw [hQ, Nat.mul_zero, Nat.zero_add] at heq
    rw [← heq, pow_zero, Nat.div_one]
    omega

theorem divStep_loop {n j Q : ℕ} {d : Udwords} {s : Division} (hn : n < 2 ^ 64) (hj : j + 1 ≤ 64)
    (ha : Aligned n d.val (j + 1)) (h : Loop n d.val (j + 1) Q s) :
    ∃ Q', Loop n d.val j Q' (divStep d s) := by
  obtain ⟨hpart, hq, hc⟩ := h
  have hQ : Q < 2 ^ (64 - (j + 1)) := hpart.quotient_lt hn hj
  have hQ2 : Q / 2 < 2 ^ (64 - (j + 1)) := Nat.lt_of_le_of_lt (Nat.div_le_self Q 2) hQ
  have hcarry : s.carry.toNat < 2 := by omega
  -- the bit that crosses from `q` to `r`
  have htop : (s.q.high >>> 31).toNat = n / 2 ^ j % 2 := by
    rw [toNat_top, hq]
    exact register_top hj hQ2
  have hr := val_shl s.r (c := s.q.high >>> 31) (by omega)
  have hrlt : 2 * s.r.val + n / 2 ^ j % 2 < 2 ^ 64 :=
    Nat.lt_of_le_of_lt (hpart.shifted_le.trans (Nat.div_le_self _ _)) hn
  rw [htop, Nat.mod_eq_of_lt hrlt] at hr
  have hqv : Udwords.val { high := (s.q.high <<< 1) ||| (s.q.low >>> 31)
                           low := (s.q.low <<< 1) ||| s.carry } = register 64 n j Q := by
    have hback : 2 * (Q / 2) + Q % 2 = Q := Nat.div_add_mod Q 2
    have hQj : Q < 2 ^ (64 - j) :=
      Nat.lt_of_lt_of_le hQ (Nat.pow_le_pow_right (by decide) (by omega))
    rw [val_shl s.q hcarry, hc, hq, register_shift hj (by rwa [hback]), hback]
  unfold divStep
  generalize ({ high := (s.r.high <<< 1) ||| (s.r.low >>> 31)
                low := (s.r.low <<< 1) ||| (s.q.high >>> 31) } : Udwords) = r at hr
  generalize ({ high := (s.q.high <<< 1) ||| (s.q.low >>> 31)
                low := (s.q.low <<< 1) ||| s.carry } : Udwords) = q at hqv
  have hrd : r.all.toNat = 2 * s.r.val + n / 2 ^ j % 2 := (Udwords.toNat_all r).trans hr
  have hsign : ((d.all - r.all - 1).toInt64 >>> 63).toUInt64 =
      if d.val ≤ 2 * s.r.val + n / 2 ^ j % 2 then -1 else 0 := by
    refine sign_sub ?_ ?_ ?_
    · rw [hrd, Udwords.toNat_all]
    · rw [hrd, Udwords.toNat_all]
      exact hpart.shifted_lt
    · rw [hrd, Udwords.toNat_all]
      exact ha.near hn d.val_lt hpart
  have hstep := hpart.step rfl
  simp only [hsign]
  by_cases hle : d.val ≤ 2 * s.r.val + n / 2 ^ j % 2
  · rw [if_pos hle, Nat.mul_one] at hstep
    rw [if_pos hle]
    refine ⟨2 * Q + 1, ?_, ?_, ?_⟩
    · have hall : d.all &&& -1 = d.all := UInt64.and_neg_one
      have hsub : (r.all - d.all).toNat = 2 * s.r.val + n / 2 ^ j % 2 - d.val := by
        rw [UInt64.toNat_sub_of_le _ _ (UInt64.le_iff_toNat_le.2 (by rwa [hrd, Udwords.toNat_all])),
          hrd, Udwords.toNat_all]
      show Partial n d.val j (2 * Q + 1) (Udwords.val (.ofAll (r.all - (d.all &&& -1))))
      rw [hall, Udwords.val_ofAll, hsub]
      exact hstep
    · rw [hqv]
      congr 1
      omega
    · show 1 = (2 * Q + 1) % 2
      omega
  · rw [if_neg hle, Nat.mul_zero, Nat.sub_zero] at hstep
    rw [if_neg hle]
    refine ⟨2 * Q + 0, ?_, ?_, ?_⟩
    · have hall : r.all - (d.all &&& 0) = r.all := by rw [UInt64.and_zero, UInt64.sub_zero]
      show Partial n d.val j (2 * Q + 0) (Udwords.val (.ofAll (r.all - (d.all &&& 0))))
      rw [hall, Udwords.val_ofAll, hrd]
      exact hstep
    · rw [hqv]
      congr 1
      omega
    · show 0 = (2 * Q + 0) % 2
      omega

/-- After all of its steps the loop has divided. -/
theorem divLoop_loop {n j Q : ℕ} {d : Udwords} {s : Division} (hn : n < 2 ^ 64) (hj : j ≤ 64)
    (ha : Aligned n d.val j) (h : Loop n d.val j Q s) :
    ∃ Q', Loop n d.val 0 Q' (divLoop d j s) := by
  induction j generalizing Q s with
  | zero => exact ⟨Q, h⟩
  | succ j ih =>
      rcases divStep_loop hn hj ha h with ⟨Q', h'⟩
      have ha' : Aligned n d.val j := ha.imp_right fun ⟨htop, h1⟩ => ⟨htop, by omega⟩
      exact ih (by omega) ha' h'

/-- From operands that are aligned, `longDivision` answers quotient and remainder. -/
theorem longDivision_exact {a b : UInt64} {sr : UInt32} {qr : Udwords × Udwords} (hb : b ≠ 0)
    (hlog : b.toNat.log2 ≤ a.toNat.log2) (hsr : sr.toNat = a.toNat.log2 + 1 - b.toNat.log2)
    (hq : qr.1.val = register 64 a.toNat sr.toNat 0) (hr : qr.2.val = a.toNat / 2 ^ sr.toNat) :
    longDivision (.ofAll b) sr qr = (a / b, a % b) := by
  have hb0 : b.toNat ≠ 0 := fun h => hb (UInt64.toNat_inj.1 h)
  have ha0 : a.toNat.log2 < 64 := by
    by_cases ha : a.toNat = 0
    · rw [ha]
      decide
    · exact (Nat.log2_lt ha).2 a.toNat_lt
  have halign : Aligned a.toNat (Udwords.ofAll b).val sr.toNat := by
    rw [Udwords.val_ofAll]
    by_cases hsmall : b.toNat ≤ 2 ^ 63
    · exact .inl hsmall
    · have h63 : 63 ≤ b.toNat.log2 := (Nat.le_log2 hb0).2 (by omega)
      have ha1 : a.toNat ≠ 0 := by
        intro ha
        rw [ha] at hlog
        have : Nat.log2 0 = 0 := by decide
        omega
      exact .inr ⟨(Nat.le_log2 ha1).1 (by omega), by omega⟩
  have hstart : Loop a.toNat (Udwords.ofAll b).val sr.toNat 0 ⟨qr.1, qr.2, 0⟩ := by
    refine ⟨?_, hq, rfl⟩
    rw [hr, Udwords.val_ofAll]
    refine Partial.start ?_
    rw [hsr]
    exact aligned_lt hb0
  rcases divLoop_loop a.toNat_lt (by omega) halign hstart with ⟨Q, hpart, hquot, hcarry⟩
  rw [Udwords.val_ofAll] at hpart
  rw [register_zero] at hquot
  obtain ⟨hdiv, hmod⟩ := hpart.done
  unfold longDivision
  generalize divLoop (.ofAll b) sr.toNat ⟨qr.1, qr.2, 0⟩ = s at hdiv hmod hquot hcarry
  refine Prod.ext ?_ ?_
  · apply UInt64.toNat_inj.1
    have hlt : Q < 2 ^ 64 := by
      rw [hdiv]
      exact Nat.lt_of_le_of_lt (Nat.div_le_self _ _) a.toNat_lt
    have hshift : (s.q.all <<< 1).toNat = Q / 2 * 2 := by
      rw [UInt64.toNat_shiftLeft, Udwords.toNat_all, hquot]
      show (Q / 2) <<< 1 % 2 ^ 64 = Q / 2 * 2
      rw [Nat.shiftLeft_eq, pow_one, Nat.mod_eq_of_lt (by omega)]
    have hdvd : 2 ^ 1 ∣ Q / 2 * 2 := Nat.dvd_mul_left _ _
    show ((s.q.all <<< 1) ||| s.carry.toUInt64).toNat = (a / b).toNat
    rw [UInt64.toNat_or, hshift, UInt32.toNat_toUInt64, hcarry, Words.or_low hdvd (by omega),
      Nat.div_add_mod', hdiv, UInt64.toNat_div]
  · apply UInt64.toNat_inj.1
    rw [Udwords.toNat_all, hmod]
    exact (UInt64.toNat_mod a b).symm

/-! ## The special cases -/

theorem toNat_clz_sub {x y : UInt32} (hx : x ≠ 0) (hy : y ≠ 0) :
    (clzsi2 x - clzsi2 y).toNat =
      (2 ^ 32 + y.toNat.log2 - x.toNat.log2) % 2 ^ 32 := by
  have h1 := clzsi2_add_log2 hx
  have h2 := clzsi2_add_log2 hy
  rw [UInt32.toNat_sub]
  omega

theorem and_pred_eq_zero {x : UInt32} (hx : x ≠ 0) (h : x &&& (x - 1) = 0) :
    x.toNat = 2 ^ (ctzsi2 x).toNat := by
  have hne : x.toNat ≠ 0 := fun h0 => hx (UInt32.toNat_inj.1 h0)
  have hpred : (x - 1).toNat = x.toNat - 1 :=
    UInt32.toNat_sub_of_le _ _ (UInt32.le_iff_toNat_le.2 (Nat.pos_of_ne_zero hne))
  have hand : x.toNat &&& (x.toNat - 1) = 0 := by
    rw [← hpred, ← UInt32.toNat_and, h]
    rfl
  rcases (Nat.and_sub_one_eq_zero_iff_isPowerOfTwo hne).1 hand with ⟨k, hk⟩
  rcases (ctzsi2_spec hx).2 with ⟨m, hm⟩
  have hdvd : 2 * m + 1 ∣ 2 ^ k := by rw [← hk, hm]; exact Nat.dvd_mul_left _ _
  have hodd : Nat.Coprime (2 * m + 1) (2 ^ k) := by
    have hmod : (2 * m + 1) % 2 = 1 := by omega
    refine Nat.Coprime.pow_right k (Nat.coprime_comm.1 ?_)
    rw [Nat.Coprime, Nat.gcd_rec, hmod, Nat.gcd_one_left]
  rw [hodd.eq_one_of_dvd hdvd, Nat.mul_one] at hm
  exact hm

theorem toNat_and_pred (y : UInt32) {x : UInt32} (hx : x ≠ 0) {c : ℕ} (hc : x.toNat = 2 ^ c) :
    (y &&& (x - 1)).toNat = y.toNat % 2 ^ c := by
  have hne : x.toNat ≠ 0 := fun h0 => hx (UInt32.toNat_inj.1 h0)
  have hpred : (x - 1).toNat = x.toNat - 1 :=
    UInt32.toNat_sub_of_le _ _ (UInt32.le_iff_toNat_le.2 (Nat.pos_of_ne_zero hne))
  rw [UInt32.toNat_and, hpred, hc, Nat.and_two_pow_sub_one_eq_mod]

section
variable {a b : UInt64}

theorem pair_eq {q r : UInt64} (hq : q.toNat = a.toNat / b.toNat)
    (hr : r.toNat = a.toNat % b.toNat) : (q, r) = (a / b, a % b) := by
  refine Prod.ext (UInt64.toNat_inj.1 ?_) (UInt64.toNat_inj.1 ?_)
  · rw [hq, UInt64.toNat_div]
  · rw [hr, UInt64.toNat_mod]

theorem pair_eq_of_lt {r : UInt64} (h : a.toNat < b.toNat) (hr : r.toNat = a.toNat) :
    (0, r) = (a / b, a % b) := by
  refine pair_eq ?_ ?_
  · rw [Nat.div_eq_of_lt h]
    rfl
  · rw [hr, Nat.mod_eq_of_lt h]

variable {n d : Udwords} (hn : n.val = a.toNat) (hd : d.val = b.toNat)
include hn hd

/-- 0 X / 0 X. -/
theorem udivmodsi_low (hnh : n.high = 0) (hdh : d.high = 0) :
    udivmodsi n.low d.low = if b = 0 then none else some (a / b, a % b) := by
  have ha : a.toNat = n.low.toNat := by rw [← hn, Udwords.val, hnh]; simp
  have hb : b.toNat = d.low.toNat := by rw [← hd, Udwords.val, hdh]; simp
  have hzero : d.low = 0 ↔ b = 0 := by
    rw [← UInt32.toNat_inj, ← UInt64.toNat_inj, hb]
    rfl
  unfold udivmodsi
  by_cases h : b = 0
  · rw [if_pos h, if_pos (hzero.2 h)]
  · rw [if_neg h, if_neg (mt hzero.1 h)]
    refine congrArg some (pair_eq ?_ ?_)
    · rw [UInt32.toNat_toUInt64, UInt32.toNat_div, ha, hb]
    · rw [UInt32.toNat_toUInt64, UInt32.toNat_mod, ha, hb]

/-- K 0 / K 0. -/
theorem high_high (hnl : n.low = 0) (hdl : d.low = 0) :
    ((n.high / d.high).toUInt64, Udwords.all { high := n.high % d.high, low := 0 }) =
      (a / b, a % b) := by
  have ha : a.toNat = n.high.toNat * 2 ^ 32 := by rw [← hn, Udwords.val, hnl]; simp
  have hb : b.toNat = d.high.toNat * 2 ^ 32 := by rw [← hd, Udwords.val, hdl]; simp
  refine pair_eq ?_ ?_
  · rw [UInt32.toNat_toUInt64, UInt32.toNat_div, ha, hb,
      Nat.mul_div_mul_right _ _ (Nat.two_pow_pos 32)]
  · rw [Udwords.toNat_all, Udwords.val, UInt32.toNat_mod, ha, hb, Nat.mul_mod_mul_right]
    exact Nat.add_zero _

/-- K K / K 0, by a power of two. -/
theorem high_pow (hdl : d.low = 0) (hdh : d.high ≠ 0) (hpow : d.high &&& (d.high - 1) = 0) :
    ((n.high >>> ctzsi2 d.high).toUInt64,
      Udwords.all { low := n.low, high := n.high &&& (d.high - 1) }) = (a / b, a % b) := by
  have hc := and_pred_eq_zero hdh hpow
  have hlt := (ctzsi2_spec hdh).1
  have hnl := n.low.toNat_lt
  have ha : a.toNat = n.high.toNat * 2 ^ 32 + n.low.toNat := hn.symm
  have hb : b.toNat = 2 ^ 32 * 2 ^ (ctzsi2 d.high).toNat := by
    rw [← hd, Udwords.val, hdl, hc, Nat.mul_comm]
    exact Nat.add_zero _
  have hdiv : a.toNat / 2 ^ 32 = n.high.toNat := by rw [ha]; omega
  have hmod : a.toNat % 2 ^ 32 = n.low.toNat := by rw [ha]; omega
  refine pair_eq ?_ ?_
  · rw [UInt32.toNat_toUInt64, toNat_shiftRight _ hlt, hb, ← Nat.div_div_eq_div_mul, hdiv]
  · rw [Udwords.toNat_all, Udwords.val, toNat_and_pred _ hdh hc, hb, Nat.mod_mul, hdiv, hmod,
      Nat.add_comm, Nat.mul_comm]

/-- K X / 0 K, by a power of two. -/
theorem low_pow (hdh : d.high = 0) (hdl : d.low ≠ 0) (hpow : d.low &&& (d.low - 1) = 0) :
    (if d.low = 1 then n.all else
        Udwords.all
          { high := n.high >>> ctzsi2 d.low
            low := (n.high <<< (32 - ctzsi2 d.low)) ||| (n.low >>> ctzsi2 d.low) },
      (n.low &&& (d.low - 1)).toUInt64) = (a / b, a % b) := by
  have hc := and_pred_eq_zero hdl hpow
  have hlt := (ctzsi2_spec hdl).1
  have hb : b.toNat = 2 ^ (ctzsi2 d.low).toNat := by rw [← hd, Udwords.val, hdh, ← hc]; simp
  refine pair_eq ?_ ?_
  · by_cases h1 : d.low = 1
    · have hone : b.toNat = 1 := by rw [hb, ← hc, h1]; rfl
      rw [if_pos h1, Udwords.toNat_all, hn, hone, Nat.div_one]
    · have hpos : 0 < (ctzsi2 d.low).toNat := by
        refine Nat.pos_of_ne_zero fun h0 => h1 (UInt32.toNat_inj.1 ?_)
        rw [hc, h0]
        rfl
      rw [if_neg h1, Udwords.toNat_all, hb, ← hn]
      exact (splitBelow_val hpos hlt).2
  · have hsplit : 2 ^ 32 = 2 ^ (ctzsi2 d.low).toNat * 2 ^ (32 - (ctzsi2 d.low).toNat) := by
      rw [← pow_add]
      congr 1
      omega
    rw [UInt32.toNat_toUInt64, toNat_and_pred _ hdl hc, hb, ← hn, Udwords.val, hsplit,
      Nat.mul_left_comm, Nat.mul_add_mod]

end

/-! ## All cases -/

theorem clz_sub_cases {x y : UInt32} (hx : x ≠ 0) (hy : y ≠ 0) :
    y.toNat.log2 < x.toNat.log2 ∧ 31 < (clzsi2 x - clzsi2 y).toNat ∨
      x.toNat.log2 ≤ y.toNat.log2 ∧
        (clzsi2 x - clzsi2 y).toNat = y.toNat.log2 - x.toNat.log2 := by
  have hsub := toNat_clz_sub hx hy
  have h1 := clzsi2_add_log2 hx
  have h2 := clzsi2_add_log2 hy
  rcases Nat.lt_or_ge y.toNat.log2 x.toNat.log2 with h | h
  · exact .inl ⟨h, by omega⟩
  · exact .inr ⟨h, by omega⟩

theorem one_le_log2 {x : UInt32} (hx : x ≠ 0) (hpow : ¬ x &&& (x - 1) = 0) :
    1 ≤ x.toNat.log2 := by
  have hne : x.toNat ≠ 0 := fun h0 => hx (UInt32.toNat_inj.1 h0)
  refine (Nat.le_log2 hne).2 ?_
  by_contra hlt
  have hone : x = 1 := UInt32.toNat_inj.1 (show x.toNat = 1 by omega)
  refine hpow ?_
  rw [hone]
  rfl

theorem toNat_succ {c : UInt32} (hc : c.toNat < 32) : (c + 1).toNat = c.toNat + 1 := by
  rw [UInt32.toNat_add]
  exact Nat.mod_eq_of_lt (show c.toNat + 1 < 2 ^ 32 by omega)

section
variable {a b : UInt64} {n d : Udwords} (hn : n = .ofAll a) (hd : d = .ofAll b)
include hn hd

/-- The places of the top bits of the upper halves say that the divisor is larger. -/
theorem high_lt (hnh : n.high ≠ 0) (hdh : d.high ≠ 0)
    (hlog : n.high.toNat.log2 < d.high.toNat.log2) : (0, n.all) = (a / b, a % b) := by
  have ha : n.val = a.toNat := by rw [hn, Udwords.val_ofAll]
  have hb : d.val = b.toNat := by rw [hd, Udwords.val_ofAll]
  refine pair_eq_of_lt ?_ (by rw [Udwords.toNat_all, ha])
  by_contra hle
  have hmono := log2_le_log2 (Nat.le_of_not_lt hle)
  rw [← ha, ← hb, Udwords.log2_val_high hnh, Udwords.log2_val_high hdh] at hmono
  omega

/-- K K / K X, bit by bit. -/
theorem high_long {sr : UInt32} {qr : Udwords × Udwords} (hnh : n.high ≠ 0) (hdh : d.high ≠ 0)
    (hlog : d.high.toNat.log2 ≤ n.high.toNat.log2)
    (hsr : sr.toNat = n.high.toNat.log2 - d.high.toNat.log2 + 1)
    (hqr : qr.1.val = register 64 n.val sr.toNat 0 ∧ qr.2.val = n.val / 2 ^ sr.toNat) :
    longDivision d sr qr = (a / b, a % b) := by
  have ha : n.val = a.toNat := by rw [hn, Udwords.val_ofAll]
  have hb : d.val = b.toNat := by rw [hd, Udwords.val_ofAll]
  have hloga := Udwords.log2_val_high hnh
  have hlogb := Udwords.log2_val_high hdh
  rw [ha] at hloga hqr
  rw [hb] at hlogb
  have hb0 : b ≠ 0 := by
    intro h0
    rw [h0] at hlogb
    have hzero : Nat.log2 (0 : UInt64).toNat = 0 := by decide
    omega
  rw [hd]
  exact longDivision_exact hb0 (by omega) (by omega) hqr.1 hqr.2

/-- K X / 0 K, bit by bit. -/
theorem low_long {sr : UInt32} {qr : Udwords × Udwords} (hnh : n.high ≠ 0) (hdh : d.high = 0)
    (hdl : d.low ≠ 0) (hsr : sr.toNat = 33 + n.high.toNat.log2 - d.low.toNat.log2)
    (hqr : qr.1.val = register 64 n.val sr.toNat 0 ∧ qr.2.val = n.val / 2 ^ sr.toNat) :
    longDivision d sr qr = (a / b, a % b) := by
  have ha : n.val = a.toNat := by rw [hn, Udwords.val_ofAll]
  have hb : d.val = b.toNat := by rw [hd, Udwords.val_ofAll]
  have hloga := Udwords.log2_val_high hnh
  have hlogb := Udwords.log2_val_low hdh
  have hl := clzsi2_add_log2 hdl
  rw [ha] at hloga hqr
  have hb0 : b ≠ 0 := by
    intro h0
    refine hdl (UInt32.toNat_inj.1 ?_)
    rw [Udwords.val, h0] at hb
    have hzero : (0 : UInt64).toNat = 0 := rfl
    have hzero' : (0 : UInt32).toNat = 0 := rfl
    omega
  rw [hb] at hlogb
  rw [hd]
  exact longDivision_exact hb0 (by omega) (by omega) hqr.1 hqr.2

theorem high_low_long (hnh : n.high ≠ 0) (hdh : d.high ≠ 0)
    (hpow : ¬ d.high &&& (d.high - 1) = 0) :
    (if clzsi2 d.high - clzsi2 n.high > 32 - 2 then some (0, n.all)
      else some (longDivision d (clzsi2 d.high - clzsi2 n.high + 1)
        (splitBelow n (clzsi2 d.high - clzsi2 n.high + 1)))) = some (a / b, a % b) := by
  have hcases := clz_sub_cases hdh hnh
  have hlogd := one_le_log2 hdh hpow
  have hclz := clzsi2_add_log2 hnh
  generalize clzsi2 d.high - clzsi2 n.high = sr at hcases
  have hgt : sr > 32 - 2 ↔ 30 < sr.toNat := UInt32.lt_iff_toNat_lt
  rcases hcases with ⟨hlog, hlarge⟩ | ⟨hlog, hsr⟩
  · rw [if_pos (hgt.2 (by omega))]
    exact congrArg some (high_lt hn hd hnh hdh hlog)
  · have hsucc := toNat_succ (c := sr) (by omega)
    rw [if_neg (mt hgt.1 (by omega))]
    exact congrArg some (high_long hn hd hnh hdh hlog (by omega)
      (splitBelow_val (by omega) (by omega)))

theorem high_all_long (hnh : n.high ≠ 0) (hdh : d.high ≠ 0) :
    (if clzsi2 d.high - clzsi2 n.high > 32 - 1 then some (0, n.all)
      else some (longDivision d (clzsi2 d.high - clzsi2 n.high + 1)
        (if clzsi2 d.high - clzsi2 n.high + 1 = 32 then splitAt n
          else splitBelow n (clzsi2 d.high - clzsi2 n.high + 1)))) = some (a / b, a % b) := by
  have hcases := clz_sub_cases hdh hnh
  have hclz := clzsi2_add_log2 hnh
  generalize clzsi2 d.high - clzsi2 n.high = sr at hcases
  have hgt : sr > 32 - 1 ↔ 31 < sr.toNat := UInt32.lt_iff_toNat_lt
  rcases hcases with ⟨hlog, hlarge⟩ | ⟨hlog, hsr⟩
  · rw [if_pos (hgt.2 (by omega))]
    exact congrArg some (high_lt hn hd hnh hdh hlog)
  · have hsucc := toNat_succ (c := sr) (by omega)
    rw [if_neg (mt hgt.1 (by omega))]
    refine congrArg some (high_long hn hd hnh hdh hlog (by omega) ?_)
    by_cases h32 : sr + 1 = 32
    · rw [if_pos h32, h32]
      exact splitAt_val
    · have hne : (sr + 1).toNat ≠ 32 := fun h => h32 (UInt32.toNat_inj.1 h)
      rw [if_neg h32]
      exact splitBelow_val (by omega) (by omega)

theorem low_all_long (hnh : n.high ≠ 0) (hdh : d.high = 0) (hdl : d.low ≠ 0)
    (hpow : ¬ d.low &&& (d.low - 1) = 0) :
    longDivision d (1 + 32 + clzsi2 d.low - clzsi2 n.high)
        (if 1 + 32 + clzsi2 d.low - clzsi2 n.high = 32 then splitAt n
          else if 1 + 32 + clzsi2 d.low - clzsi2 n.high < 32 then
            splitBelow n (1 + 32 + clzsi2 d.low - clzsi2 n.high)
          else splitAbove n (1 + 32 + clzsi2 d.low - clzsi2 n.high)) = (a / b, a % b) := by
  have hlogd := one_le_log2 hdl hpow
  have hclzn := clzsi2_add_log2 hnh
  have hclzd := clzsi2_add_log2 hdl
  have hsr : (1 + 32 + clzsi2 d.low - clzsi2 n.high).toNat =
      33 + n.high.toNat.log2 - d.low.toNat.log2 := by
    have h33 : (1 + 32 : UInt32).toNat = 33 := rfl
    rw [UInt32.toNat_sub, UInt32.toNat_add, h33]
    omega
  generalize 1 + 32 + clzsi2 d.low - clzsi2 n.high = sr at hsr
  refine low_long hn hd hnh hdh hdl hsr ?_
  by_cases h32 : sr = 32
  · rw [if_pos h32, h32]
    exact splitAt_val
  · have hne : sr.toNat ≠ 32 := fun h => h32 (UInt32.toNat_inj.1 h)
    have hiff : sr < 32 ↔ sr.toNat < 32 := UInt32.lt_iff_toNat_lt
    rw [if_neg h32]
    by_cases hlt : sr < 32
    · rw [if_pos hlt]
      exact splitBelow_val (by omega) (hiff.1 hlt)
    · have hge := mt hiff.2 hlt
      rw [if_neg hlt]
      exact splitAbove_val (by omega) (by omega)

end

/-- Whichever way it takes, `__udivmoddi4` divides; by zero it faults. -/
theorem udivmoddi4_eq (a b : UInt64) :
    udivmoddi4 a b = if b = 0 then none else some (a / b, a % b) := by
  unfold udivmoddi4
  generalize hn : Udwords.ofAll a = n
  generalize hd : Udwords.ofAll b = d
  have ha : n.val = a.toNat := by rw [← hn, Udwords.val_ofAll]
  have hb : d.val = b.toNat := by rw [← hd, Udwords.val_ofAll]
  have hb0 : b = 0 ↔ d.high = 0 ∧ d.low = 0 := by
    rw [← UInt64.toNat_inj, ← UInt32.toNat_inj, ← UInt32.toNat_inj, ← hb, Udwords.val]
    simp only [UInt64.toNat_zero, UInt32.toNat_zero]
    omega
  have hne_low (h : d.low ≠ 0) : b ≠ 0 := fun h0 => h (hb0.1 h0).2
  have hne_high (h : d.high ≠ 0) : b ≠ 0 := fun h0 => h (hb0.1 h0).1
  by_cases hnh : n.high = 0
  · rw [if_pos hnh]
    by_cases hdh : d.high = 0
    · rw [if_pos hdh]
      exact udivmodsi_low ha hb hnh hdh
    · rw [if_neg hdh, if_neg (hne_high hdh)]
      have hlow : n.low.toNat = a.toNat := by rw [← ha, Udwords.val, hnh]; simp
      refine congrArg some (pair_eq_of_lt ?_ (by rw [UInt32.toNat_toUInt64, hlow]))
      have hl := n.low.toNat_lt
      have hh : d.high.toNat ≠ 0 := fun h0 => hdh (UInt32.toNat_inj.1 h0)
      rw [← hb, Udwords.val, ← hlow]
      omega
  rw [if_neg hnh]
  by_cases hdl : d.low = 0
  · rw [if_pos hdl]
    by_cases hdh : d.high = 0
    · rw [if_pos hdh, if_pos (hb0.2 ⟨hdh, hdl⟩), udivmodsi, if_pos hdl]
    rw [if_neg hdh, if_neg (hne_high hdh)]
    by_cases hnl : n.low = 0
    · rw [if_pos hnl]
      exact congrArg some (high_high ha hb hnl hdl)
    rw [if_neg hnl]
    by_cases hpow : d.high &&& (d.high - 1) = 0
    · rw [if_pos hpow]
      exact congrArg some (high_pow ha hb hdl hdh hpow)
    rw [if_neg hpow]
    exact high_low_long hn.symm hd.symm hnh hdh hpow
  · rw [if_neg hdl, if_neg (hne_low hdl)]
    by_cases hdh : d.high = 0
    · rw [if_pos hdh]
      by_cases hpow : d.low &&& (d.low - 1) = 0
      · rw [if_pos hpow]
        exact congrArg some (low_pow ha hb hdh hdl hpow)
      rw [if_neg hpow]
      exact congrArg some (low_all_long hn.symm hd.symm hnh hdh hdl hpow)
    · rw [if_neg hdh]
      exact high_all_long hn.symm hd.symm hnh hdh

/-! ## The counts of 64-bit words -/

theorem select_true (x y : UInt32) :
    (x &&& -ofBool true) ||| (y &&& ~~~(-ofBool true)) = x := by
  have hones : -ofBool true = -1 := rfl
  rw [hones, UInt32.and_neg_one, UInt32.not_neg_one, UInt32.and_zero, UInt32.or_zero]

theorem select_false (x y : UInt32) :
    (x &&& -ofBool false) ||| (y &&& ~~~(-ofBool false)) = y := by
  have hzero : -ofBool false = 0 := rfl
  rw [hzero, UInt32.and_zero, UInt32.not_zero, UInt32.and_neg_one, UInt32.zero_or]

theorem clzdi2_swap (a : UInt64) :
    clzdi2 a = clzsi2 (((Udwords.ofAll a).low &&& -ofBool ((Udwords.ofAll a).high == 0)) |||
        ((Udwords.ofAll a).high &&& ~~~(-ofBool ((Udwords.ofAll a).high == 0)))) +
      (-ofBool ((Udwords.ofAll a).high == 0) &&& 32) := by
  rw [UInt32.or_comm]
  rfl

theorem clzdi2_low {a : UInt64} (h : (Udwords.ofAll a).high = 0) :
    clzdi2 a = clzsi2 (Udwords.ofAll a).low + 32 := by
  rw [clzdi2_swap, h, beq_self_eq_true, select_true]
  rfl

theorem clzdi2_high {a : UInt64} (h : (Udwords.ofAll a).high ≠ 0) :
    clzdi2 a = clzsi2 (Udwords.ofAll a).high := by
  rw [clzdi2_swap, beq_false_of_ne h, select_false]
  exact UInt32.add_zero _

theorem ctzdi2_low {a : UInt64} (h : (Udwords.ofAll a).low ≠ 0) :
    ctzdi2 a = ctzsi2 (Udwords.ofAll a).low := by
  simp only [ctzdi2, beq_false_of_ne h, select_false]
  exact UInt32.add_zero _

theorem ctzdi2_high {a : UInt64} (h : (Udwords.ofAll a).low = 0) :
    ctzdi2 a = ctzsi2 (Udwords.ofAll a).high + 32 := by
  simp only [ctzdi2, h, beq_self_eq_true, select_true]
  rfl

theorem clzdi2_add_log2 {a : UInt64} (ha : a ≠ 0) : (clzdi2 a).toNat + a.toNat.log2 = 63 := by
  by_cases hh : (Udwords.ofAll a).high = 0
  · have hlow : (Udwords.ofAll a).low ≠ 0 := by
      intro h0
      refine ha (UInt64.toNat_inj.1 ?_)
      rw [← Udwords.val_ofAll, Udwords.val, hh, h0]
      rfl
    have hc := clzsi2_add_log2 hlow
    have h32 : (32 : UInt32).toNat = 32 := rfl
    rw [clzdi2_low hh, ← Udwords.val_ofAll, Udwords.log2_val_low hh, UInt32.toNat_add, h32]
    omega
  · have hc := clzsi2_add_log2 hh
    rw [clzdi2_high hh, ← Udwords.val_ofAll, Udwords.log2_val_high hh]
    omega

theorem ctzdi2_spec {a : UInt64} (ha : a ≠ 0) :
    ∃ m, a.toNat = 2 ^ (ctzdi2 a).toNat * (2 * m + 1) := by
  by_cases hl : (Udwords.ofAll a).low = 0
  · have hhigh : (Udwords.ofAll a).high ≠ 0 := by
      intro h0
      refine ha (UInt64.toNat_inj.1 ?_)
      rw [← Udwords.val_ofAll, Udwords.val, hl, h0]
      rfl
    obtain ⟨hlt, m, hm⟩ := ctzsi2_spec hhigh
    have h32 : (32 : UInt32).toNat = 32 := rfl
    have hsum : (ctzdi2 a).toNat = (ctzsi2 (Udwords.ofAll a).high).toNat + 32 := by
      rw [ctzdi2_high hl, UInt32.toNat_add, h32, Nat.mod_eq_of_lt (by omega)]
    refine ⟨m, ?_⟩
    rw [hsum, ← Udwords.val_ofAll, Udwords.val, hl, hm, pow_add, UInt32.toNat_zero]
    ring
  · obtain ⟨hlt, m, hm⟩ := ctzsi2_spec hl
    refine ⟨(Udwords.ofAll a).high.toNat * 2 ^ (31 - (ctzdi2 a).toNat) + m, ?_⟩
    rw [← ctzdi2_low hl] at hlt hm
    have hsplit : 2 ^ 32 = 2 ^ (ctzdi2 a).toNat * (2 * 2 ^ (31 - (ctzdi2 a).toNat)) := by
      rw [← pow_succ', ← pow_add]
      congr 1
      omega
    calc a.toNat = (Udwords.ofAll a).high.toNat * 2 ^ 32 + (Udwords.ofAll a).low.toNat :=
          (Udwords.val_ofAll a).symm
      _ = 2 ^ (ctzdi2 a).toNat *
          (2 * ((Udwords.ofAll a).high.toNat * 2 ^ (31 - (ctzdi2 a).toNat) + m) + 1) := by
        rw [hm, hsplit]
        ring

/-- The counts of zeros name the highest and the lowest bit that is set. -/
theorem zeroCounts_exact {a : UInt64} (ha : a ≠ 0) :
    (clzdi2 a).toNat + a.toNat.log2 = 63 ∧
      a.toNat.testBit (ctzdi2 a).toNat = true ∧ 2 ^ (ctzdi2 a).toNat ∣ a.toNat := by
  rcases ctzdi2_spec ha with ⟨m, hm⟩
  refine ⟨clzdi2_add_log2 ha, ?_, ?_⟩
  · rw [hm, Nat.testBit_two_pow_mul, Nat.sub_self]
    simp
  · rw [hm]
    exact Nat.dvd_mul_right _ _

theorem zeroCounts_lowest_high : (clzdi2 0x10800000000).toNat + 40 = 63 ∧
    Nat.testBit 0x10800000000 35 = true ∧ 2 ^ 35 ∣ 0x10800000000 :=
  zeroCounts_exact (a := 0x10800000000) (by decide)

/-! ## Signed words -/

theorem signOf_eq (a : Int64) : signOf a = if a.toBitVec.msb then -1 else 0 := by
  have hmsb : a.toBitVec.msb = decide (2 ^ 63 ≤ a.toUInt64.toNat) := BitVec.msb_eq_decide _
  have hsign : signOf a = if 2 ^ 63 ≤ a.toUInt64.toNat then -1 else 0 := sign_eq a.toUInt64
  rw [hsign, hmsb]
  simp only [decide_eq_true_iff]

theorem negateIf_zero (a : UInt64) : negateIf 0 a = a := by simp [negateIf]

theorem negateIf_neg_one (a : UInt64) : negateIf (-1) a = -a := by
  have hxor : a ^^^ -1 = ~~~a := by simp
  rw [negateIf, hxor, UInt64.neg_eq_not_add a, UInt64.sub_eq_add_neg, UInt64.neg_neg]

/-- `a`, with the sign taken off it. -/
def magnitude (a : Int64) : UInt64 := if a.toBitVec.msb then -a.toUInt64 else a.toUInt64

theorem negateIf_signOf (a : Int64) : negateIf (signOf a) a.toUInt64 = magnitude a := by
  rw [signOf_eq, magnitude]
  split
  · exact negateIf_neg_one _
  · exact negateIf_zero _

theorem magnitude_eq_zero {a : Int64} : magnitude a = 0 ↔ a = 0 := by
  have hzero : a.toUInt64 = 0 ↔ a = 0 := by
    rw [← UInt64.toBitVec_inj, ← Int64.toBitVec_inj]
    rfl
  rw [magnitude]
  split
  · exact (not_iff_not.1 UInt64.neg_ne_zero).trans hzero
  · exact hzero

theorem div_eq_magnitude (a b : Int64) :
    (negateIf (signOf a ^^^ signOf b) (magnitude a / magnitude b)).toInt64 = a / b := by
  apply Int64.toBitVec_inj.1
  rw [signOf_eq, signOf_eq, magnitude, magnitude, Int64.toBitVec_div, BitVec.sdiv]
  cases a.toBitVec.msb <;> cases b.toBitVec.msb
  · exact congrArg UInt64.toBitVec (negateIf_zero _)
  · exact congrArg UInt64.toBitVec (negateIf_neg_one _)
  · exact congrArg UInt64.toBitVec (negateIf_neg_one _)
  · exact congrArg UInt64.toBitVec (negateIf_zero _)

theorem mod_eq_magnitude (a b : Int64) :
    (negateIf (signOf a) (magnitude a % magnitude b)).toInt64 = a % b := by
  apply Int64.toBitVec_inj.1
  rw [signOf_eq, magnitude, magnitude, Int64.toBitVec_mod, BitVec.srem]
  cases a.toBitVec.msb <;> cases b.toBitVec.msb
  · exact congrArg UInt64.toBitVec (negateIf_zero _)
  · exact congrArg UInt64.toBitVec (negateIf_zero _)
  · exact congrArg UInt64.toBitVec (negateIf_neg_one _)
  · exact congrArg UInt64.toBitVec (negateIf_neg_one _)

theorem div_eq_ofInt (a b : Int64) : a / b = Int64.ofInt (a.toInt.tdiv b.toInt) :=
  ((Int64.ofInt_eq_iff_bmod_eq_toInt _ _).2 (Int64.toInt_div a b).symm).symm

theorem mod_eq_ofInt (a b : Int64) : a % b = Int64.ofInt (a.toInt.tmod b.toInt) := by
  rw [← Int64.toInt_mod, Int64.ofInt_toInt]

/-- The remainder from the quotient, also where the quotient wraps around. -/
theorem sub_div_mul (a b : Int64) : a - a / b * b = a % b := by
  have hmod := Int.tmod_def a.toInt b.toInt
  calc a - a / b * b
      = Int64.ofInt (a.toInt - a.toInt.tdiv b.toInt * b.toInt) := by
        rw [Int64.ofInt_sub, Int64.ofInt_mul, ← div_eq_ofInt, Int64.ofInt_toInt, Int64.ofInt_toInt]
    _ = a % b := by
        rw [mul_comm, ← hmod, mod_eq_ofInt]

theorem divdi3_eq (a b : Int64) : divdi3 a b = if b = 0 then none else some (a / b) := by
  rw [divdi3, udivdi3, udivmoddi4_eq, negateIf_signOf, negateIf_signOf, ← div_eq_magnitude]
  by_cases hb : b = 0
  · rw [if_pos (magnitude_eq_zero.2 hb), if_pos hb]
    rfl
  · rw [if_neg (mt magnitude_eq_zero.1 hb), if_neg hb]
    rfl

theorem moddi3_eq (a b : Int64) : moddi3 a b = if b = 0 then none else some (a % b) := by
  rw [moddi3, umoddi3, udivmoddi4_eq, negateIf_signOf, negateIf_signOf, ← mod_eq_magnitude]
  by_cases hb : b = 0
  · rw [if_pos (magnitude_eq_zero.2 hb), if_pos hb]
    rfl
  · rw [if_neg (mt magnitude_eq_zero.1 hb), if_neg hb]
    rfl

theorem divmoddi4_eq (a b : Int64) :
    divmoddi4 a b = if b = 0 then none else some (a / b, a % b) := by
  rw [divmoddi4, divdi3_eq]
  by_cases hb : b = 0
  · rw [if_pos hb, if_pos hb]
    rfl
  · rw [if_neg hb, if_neg hb, Option.map_some, sub_div_mul]

/-- On signed words the quotient is the one of the integers, rounded towards zero, and the remainder
goes with it; what does not fit, which is only the least number divided by -1, wraps around. -/
theorem signedDivision_exact (a b : Int64) :
    divdi3 a b = (if b = 0 then none else some (Int64.ofInt (a.toInt.tdiv b.toInt))) ∧
      moddi3 a b = (if b = 0 then none else some (Int64.ofInt (a.toInt.tmod b.toInt))) ∧
      divmoddi4 a b = (if b = 0 then none else
        some (Int64.ofInt (a.toInt.tdiv b.toInt), Int64.ofInt (a.toInt.tmod b.toInt))) := by
  rw [← div_eq_ofInt, ← mod_eq_ofInt]
  exact ⟨divdi3_eq a b, moddi3_eq a b, divmoddi4_eq a b⟩

/-- The unsigned functions: quotient and remainder of every two words, and a fault only by zero. -/
theorem unsignedDivision_exact (a b : UInt64) :
    udivmoddi4 a b = (if b = 0 then none else some (a / b, a % b)) ∧
      udivdi3 a b = (if b = 0 then none else some (a / b)) ∧
      umoddi3 a b = (if b = 0 then none else some (a % b)) := by
  rw [udivdi3, umoddi3, udivmoddi4_eq]
  by_cases hb : b = 0
  · simp only [if_pos hb, Option.map_none, and_self]
  · simp only [if_neg hb, Option.map_some, and_self]

end OsLab.DoubleWord
