import OsLab.Klib.Vsprintf

/-! # `sprintf` of the C library of the kernel (`klib/src/stdio.c`)

For the formats of literal characters and the conversions %c, %s, %d, %u and %p
the text that is stored is compared with the standard one. They differ for
negative numbers: `vsprintf` keeps the argument of %d in an `unsigned int` and
so prints it without its sign.
-/

namespace OsLab

open Numeral

/-- `sprintf`, with its arguments in `args`. -/
def sprintf (m : ByteMem) (fmt : List UInt8) (args : List UInt64) (s : ByteMem) :
    Option (ℕ × List UInt8) :=
  vsprintf m fmt args s

/-! ## The standard text -/

/-- A natural number in decimal. -/
def decimal (n : ℕ) : List UInt8 := if n = 0 then ['0'.toUInt8] else numeral digitByte 10 n

/-- An integer in decimal. -/
def signedDecimal (i : ℤ) : List UInt8 :=
  if i < 0 then '-'.toUInt8 :: decimal i.natAbs else decimal i.natAbs

/-- A word as an `int`. -/
def intArg (a : UInt64) : ℤ := a.toUInt32.toInt32.toInt

namespace Piece

/-- A literal character or one of the conversions %c, %s, %d, %u and %p. -/
def Standard : Piece → Prop
  | lit _ | c _ | s _ _ | d _ | u _ | p _ => True
  | l _ _ | other _ => False

/-- What the standard has for the piece. -/
def text : Piece → List UInt8
  | lit b => [b]
  | c a => [a.toUInt32.toUInt8]
  | s _ x => x
  | d a => signedDecimal (intArg a)
  | u a => decimal a.toUInt32.toNat
  | p a => ['0'.toUInt8, 'x'.toUInt8] ++ padded digitByte 16 a.toNat 8
  -- not in the formats looked at
  | l _ _ | other _ => []

/-- Not a %d with a negative argument. -/
def NonNeg : Piece → Prop
  | d a => 0 ≤ intArg a
  | _ => True

end Piece

theorem intArg_eq (a : UInt64) : intArg a =
    if a.toUInt32.toNat < 2 ^ 31 then (a.toUInt32.toNat : ℤ) else a.toUInt32.toNat - 2 ^ 32 := by
  have ha := a.toUInt32.toNat_lt
  unfold intArg
  rw [← Int32.toInt_toBitVec, UInt32.toBitVec_toInt32, BitVec.toInt_eq_toNat_cond,
    UInt32.toNat_toBitVec]
  split <;> split <;> omega

theorem unsignedText_eq (i : UInt32) : Piece.unsignedText i = decimal i.toNat := by
  unfold Piece.unsignedText decimal
  by_cases hi : i = 0
  · rw [if_pos hi, hi]
    rfl
  · have hne : i.toNat ≠ 0 := fun h => hi (UInt32.toNat.inj h)
    rw [if_neg hi, if_neg hne]

theorem decimal_ne_nil (n : ℕ) : decimal n ≠ [] := by
  unfold decimal
  split
  · exact List.cons_ne_nil _ _
  · rename_i hn
    exact numeral_ne_nil digitByte hn

/-- There is no sign in it. -/
theorem sign_notMem_decimal (n : ℕ) : '-'.toUInt8 ∉ decimal n := by
  unfold decimal
  intro h
  split at h
  · exact absurd h (by decide)
  · rw [← padded_zero] at h
    rcases mem_padded digitByte (by decide) h with ⟨d, hd, heq⟩
    exact (digitByte_ne (by omega)).2 heq

theorem printed_eq_text {x : Piece} (hx : x.Standard) (h : x.NonNeg) : x.printed = x.text := by
  cases x with
  | d a =>
      have hnn : 0 ≤ intArg a := h
      have hval := intArg_eq a
      have habs : (intArg a).natAbs = a.toUInt32.toNat := by
        have ha := a.toUInt32.toNat_lt
        split at hval <;> omega
      rw [Piece.printed, Piece.text, signedDecimal, if_neg (by omega), unsignedText_eq, habs]
  | u a => exact unsignedText_eq _
  | lit b => rfl
  | c a => rfl
  | s a x => rfl
  | p a => rfl
  | l b a => exact hx.elim
  | other b => exact hx.elim

/-- A negative number is seen at its first character. -/
theorem printed_append_ne {x : Piece} (h : ¬ x.NonNeg) (y z : List UInt8) :
    x.printed ++ y ≠ x.text ++ z := by
  cases x with
  | d a =>
      have hneg : ¬ 0 ≤ intArg a := h
      intro heq
      rw [Piece.printed, Piece.text, signedDecimal, if_pos (by omega), unsignedText_eq] at heq
      cases hd : decimal a.toUInt32.toNat with
      | nil => exact decimal_ne_nil _ hd
      | cons b x =>
          rw [hd, List.cons_append, List.cons_append] at heq
          have hb := (List.cons.inj heq).1
          have hmem : b ∈ decimal a.toUInt32.toNat := by
            rw [hd]
            exact List.mem_cons_self
          rw [hb] at hmem
          exact sign_notMem_decimal _ hmem
  | lit b => exact absurd trivial h
  | c a => exact absurd trivial h
  | s a x => exact absurd trivial h
  | u a => exact absurd trivial h
  | p a => exact absurd trivial h
  | l b a => exact absurd trivial h
  | other b => exact absurd trivial h

theorem flatMap_printed_eq_iff {ps : List Piece} (hps : ∀ x ∈ ps, x.Standard) (z : List UInt8) :
    ps.flatMap Piece.printed ++ z = ps.flatMap Piece.text ++ z ↔ ∀ x ∈ ps, x.NonNeg := by
  induction ps with
  | nil => exact iff_of_true rfl fun _ h => absurd h List.not_mem_nil
  | cons x ps ih =>
      have hrest := ih fun y hy => hps y (List.mem_cons_of_mem _ hy)
      rw [List.flatMap_cons, List.flatMap_cons, List.append_assoc, List.append_assoc,
        List.forall_mem_cons, ← hrest]
      by_cases hx : x.NonNeg
      · rw [printed_eq_text (hps x List.mem_cons_self) hx, List.append_right_inj]
        exact (and_iff_right hx).symm
      · exact iff_of_false (printed_append_ne hx _ _) fun h => hx h.1

/-- `sprintf` stores the standard text exactly if no argument of a %d is negative, and `next` can
count the text. -/
theorem sprintf_standard_iff {m s : ByteMem} {ps : List Piece} {args : List UInt64}
    (hs : s.stop = s.start + 50) (hok : ∀ x ∈ ps, x.Ok m) (hstd : ∀ x ∈ ps, x.Standard)
    (hargs : ps.flatMap Piece.args <+: args) :
    sprintf m (ps.flatMap Piece.code ++ [0]) args s =
        some ((ps.flatMap Piece.text).length + 1, ps.flatMap Piece.text ++ [0]) ↔
      (∀ x ∈ ps, x.NonNeg) ∧ (ps.flatMap Piece.text).length + 1 < 2 ^ 31 := by
  unfold sprintf
  constructor
  · intro h
    have hfit : (ps.flatMap Piece.printed).length + 1 < 2 ^ 31 := by
      by_contra hfull
      rw [vsprintf_overflow hs hok hargs (by omega)] at h
      cases h
    rw [vsprintf_complete hs hok hargs hfit] at h
    have heq := (Prod.mk.inj (Option.some.inj h)).2
    rw [List.append_cancel_right heq] at hfit
    exact ⟨(flatMap_printed_eq_iff hstd [0]).1 heq, hfit⟩
  · rintro ⟨hnn, hfit⟩
    have heq := List.append_cancel_right ((flatMap_printed_eq_iff hstd [0]).2 hnn)
    rw [← heq] at hfit ⊢
    exact vsprintf_complete hs hok hargs hfit

/-- "%s=%d;" with "ok" and 5 becomes "ok=5;". -/
theorem sprintf_ok :
    sprintf okString (['%', 's', '=', '%', 'd', ';'].map Char.toUInt8 ++ [0]) [1, 5] scratch =
      some (6, ['o', 'k', '=', '5', ';'].map Char.toUInt8 ++ [0]) := by
  refine (@sprintf_standard_iff okString scratch okPieces [1, 5] rfl okPieces_ok ?_
    List.prefix_rfl).2 ⟨?_, by decide⟩
  · unfold okPieces
    simp only [List.forall_mem_cons]
    exact ⟨trivial, trivial, trivial, trivial, fun _ h => absurd h List.not_mem_nil⟩
  · unfold okPieces
    simp only [List.forall_mem_cons]
    exact ⟨trivial, trivial, show 0 ≤ intArg 5 by decide, trivial,
      fun _ h => absurd h List.not_mem_nil⟩

/-- "%d" with -1 becomes "4294967295". -/
theorem not_sprintf_standard : ¬ ∀ (m s : ByteMem) (ps : List Piece) (args : List UInt64),
    s.stop = s.start + 50 → (∀ x ∈ ps, x.Ok m) → (∀ x ∈ ps, x.Standard) →
    ps.flatMap Piece.args <+: args →
    sprintf m (ps.flatMap Piece.code ++ [0]) args s =
      some ((ps.flatMap Piece.text).length + 1, ps.flatMap Piece.text ++ [0]) := by
  intro h
  have htext : [Piece.d 0xFFFFFFFF].flatMap Piece.text = [45, 49] := by decide
  have hcode : (sprintf emptyString (['%'.toUInt8, 'd'.toUInt8] ++ [0]) [0xFFFFFFFF] scratch).map
      Prod.fst = some 11 := by decide +kernel
  have hrun := h emptyString scratch [Piece.d 0xFFFFFFFF] [0xFFFFFFFF] rfl
    (fun x hx => by rw [List.mem_singleton.1 hx]; trivial)
    (fun x hx => by rw [List.mem_singleton.1 hx]; trivial) List.prefix_rfl
  rw [htext] at hrun
  exact absurd ((congrArg (Option.map Prod.fst) hrun).symm.trans hcode) (by decide)

end OsLab
