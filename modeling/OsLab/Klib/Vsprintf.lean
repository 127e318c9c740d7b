import OsLab.Klib.Itos

/-! # `vsprintf` of the C library of the kernel (`klib/src/stdio.c`)

The format is an array of bytes that ends with its NUL; a look behind it is a
fault. The arguments are words, of which `va_arg` takes one after the other; a
`%s` argument points into the memory. The characters stored at `out[next++]`
are the list `out`, so `next` is its length: an `int`, which must not overflow;
the buffer overlaps neither the format nor the strings. The functions answer
`none` for a fault.

The loop tests for the end of the format in its header only. After a '%' it goes
on to the next character, and after "%l" to the one behind, whatever they are.
-/

namespace OsLab

open Numeral

/-- The variables of `vsprintf`: the arguments left, the characters stored, and the scratch buffer
`s`. -/
structure VsprintfState where
  args : List UInt64
  out : List UInt8
  s : ByteMem

/-- `va_arg`: the next word. -/
def vaArg (st : VsprintfState) : Option (UInt64 × VsprintfState) :=
  match st.args with
  | [] => none
  | a :: args => some (a, { st with args := args })

/-- `out[next++] = b`. -/
def emit (b : UInt8) (st : VsprintfState) : Option VsprintfState :=
  if st.out.length + 1 < 2 ^ 31 then some { st with out := st.out ++ [b] } else none

/-- `for (const char *p = ps; *p; ++p) out[next++] = *p;`, with `left` addresses up to the end of
the memory. -/
def emitFrom (m : ByteMem) : ℕ → ℕ → VsprintfState → Option VsprintfState
  | 0, _, _ => none
  | left + 1, p, st =>
      if m.Inside p 1 then
        if m.byte p = 0 then some st
        else (emit (m.byte p) st).bind (emitFrom m left (p + 1))
      else none

def emitString (m : ByteMem) (ps : ℕ) (st : VsprintfState) : Option VsprintfState :=
  emitFrom m (m.stop - ps) ps st

/-- `ps = &s[49]; ps = _itos(val, ps, base, length);` and the loop over the digits. -/
def emitNumber (val base : UInt64) (length : ℤ) (st : VsprintfState) : Option VsprintfState :=
  (itos val (st.s.start + 49) base length st.s.traced).bind fun r =>
    emitString r.2.mem r.1 { st with s := r.2.mem }

/-- The cases 'd' and 'u', and 'l'. Since `i` is unsigned, `i < 0` is never true. -/
def convertInt (st : VsprintfState) : Option VsprintfState :=
  (vaArg st).bind fun r =>
    let i := r.1.toUInt32
    if i = 0 then emit '0'.toUInt8 r.2
    else
      (if i < 0 then (emit '-'.toUInt8 r.2).map fun st => (-i, st) else some (i, r.2)).bind fun r =>
        emitNumber r.1.toUInt64 10 (-1) r.2

/-- `switch (*c)`, but for the case 'l'. -/
def convert (m : ByteMem) (c : UInt8) (st : VsprintfState) : Option VsprintfState :=
  if c = 'c'.toUInt8 then (vaArg st).bind fun r => emit r.1.toUInt32.toUInt8 r.2
  else if c = 'd'.toUInt8 ∨ c = 'u'.toUInt8 then convertInt st
  else if c = 's'.toUInt8 then (vaArg st).bind fun r => emitString m r.1.toNat r.2
  else if c = 'p'.toUInt8 then (vaArg st).bind fun r => emitNumber r.1 16 8 r.2
  else emit '?'.toUInt8 st

/-- `for (const char *c = fmt; *c != '\0'; ++c)`, and the NUL that is stored after it. -/
def formatFrom (m : ByteMem) : List UInt8 → VsprintfState → Option VsprintfState
  | [], _ => none
  | c :: f, st =>
      if c = 0 then emit 0 st
      else if c ≠ '%'.toUInt8 then (emit c st).bind (formatFrom m f)
      else
        match f with
        | [] => none
        | c :: f =>
            if c = 'l'.toUInt8 then
              -- `++c` without a look at the character
              match f with
              | [] => none
              | _ :: f => (convertInt st).bind (formatFrom m f)
            else (convert m c st).bind (formatFrom m f)

/-- `vsprintf`: `next`, and what is stored at `out`. -/
def vsprintf (m : ByteMem) (fmt : List UInt8) (args : List UInt64) (s : ByteMem) :
    Option (ℕ × List UInt8) :=
  (s.traced.store (s.start + 49) 0).bind fun t =>
    (formatFrom m fmt ⟨args, [], t.mem⟩).map fun st => (st.out.length, st.out)

/-! ## Formats -/

/-- A piece of a format, with its argument. -/
inductive Piece where
  | lit (b : UInt8)
  | c (a : UInt64)
  /-- The argument points to the string `x`. -/
  | s (a : UInt64) (x : List UInt8)
  | d (a : UInt64)
  | u (a : UInt64)
  | p (a : UInt64)
  /-- "%l" and one more character. -/
  | l (b : UInt8) (a : UInt64)
  /-- '%' and a character that is no conversion. -/
  | other (b : UInt8)

namespace Piece

/-- How the piece is written. -/
def code : Piece → List UInt8
  | lit b => [b]
  | c _ => ['%'.toUInt8, 'c'.toUInt8]
  | s _ _ => ['%'.toUInt8, 's'.toUInt8]
  | d _ => ['%'.toUInt8, 'd'.toUInt8]
  | u _ => ['%'.toUInt8, 'u'.toUInt8]
  | p _ => ['%'.toUInt8, 'p'.toUInt8]
  | l b _ => ['%'.toUInt8, 'l'.toUInt8, b]
  | other b => ['%'.toUInt8, b]

def args : Piece → List UInt64
  | lit _ | other _ => []
  | c a | s a _ | d a | u a | p a | l _ a => [a]

/-- The numeral of an `unsigned int`. -/
def unsignedText (i : UInt32) : List UInt8 :=
  if i = 0 then ['0'.toUInt8] else numeral digitByte 10 i.toNat

/-- What `vsprintf` stores for the piece. -/
def printed : Piece → List UInt8
  | lit b => [b]
  | c a => [a.toUInt32.toUInt8]
  | s _ x => x
  | d a | u a | l _ a => unsignedText a.toUInt32
  | p a => ['0'.toUInt8, 'x'.toUInt8] ++ padded digitByte 16 a.toNat 8
  | other _ => ['?'.toUInt8]

/-- The characters are those of the kind of piece, and a `%s` argument points to its string. -/
def Ok (m : ByteMem) : Piece → Prop
  | lit b => b ≠ 0 ∧ b ≠ '%'.toUInt8
  | s a x => 0 ∉ x ∧ m.Holds a.toNat (x ++ [0])
  | l b _ => b ≠ 0
  | other b => b ≠ 0 ∧ b ≠ 'c'.toUInt8 ∧ b ≠ 'd'.toUInt8 ∧ b ≠ 'u'.toUInt8 ∧ b ≠ 's'.toUInt8 ∧
      b ≠ 'p'.toUInt8 ∧ b ≠ 'l'.toUInt8
  | c _ | d _ | u _ | p _ => True

end Piece

/-- What is left of a format behind its pieces: nothing, or a '%' or "%l" at the end. -/
def formatTail : List UInt8 → List UInt8
  | [] => []
  | b :: f =>
      if b ≠ '%'.toUInt8 then formatTail f
      else
        match f with
        | [] => ['%'.toUInt8]
        | c :: f =>
            if c = 'l'.toUInt8 then
              match f with
              | [] => ['%'.toUInt8, 'l'.toUInt8]
              | _ :: f => formatTail f
            else formatTail f

/-- The format consists of pieces: it does not end within one. -/
def Complete (f : List UInt8) : Prop := formatTail f = []

instance (f : List UInt8) : Decidable (Complete f) := inferInstanceAs (Decidable (_ = _))

/-- The pieces `ps` of the format `f` get their arguments from `args`. -/
structure Supplied (m : ByteMem) (f : List UInt8) (args : List UInt64) (ps : List Piece) :
    Prop where
  ok : ∀ x ∈ ps, x.Ok m
  format : f = ps.flatMap Piece.code ++ formatTail f
  args : ps.flatMap Piece.args <+: args

/-! ## One piece -/

/-- `r` is what comes of storing the text `x` behind `out`, with the arguments `args` left. -/
structure Prints (out : List UInt8) (args : List UInt64) (x : List UInt8)
    (r : Option VsprintfState) : Prop where
  fits : out.length + x.length < 2 ^ 31 →
    ∃ s : ByteMem, s.stop = s.start + 50 ∧ r = some ⟨args, out ++ x, s⟩
  full : 2 ^ 31 ≤ out.length + x.length → r = none

theorem prints_emit {st : VsprintfState} {b : UInt8} (hs : st.s.stop = st.s.start + 50) :
    Prints st.out st.args [b] (emit b st) := by
  constructor
  · intro h
    exact ⟨st.s, hs, if_pos h⟩
  · intro h
    exact if_neg (by rw [List.length_singleton] at h; omega)

/-- First `x`, then `y`. -/
theorem Prints.bind {out : List UInt8} {args args' : List UInt64} {x y : List UInt8}
    {r : Option VsprintfState} {g : VsprintfState → Option VsprintfState} (h : Prints out args x r)
    (hnext : ∀ s : ByteMem, s.stop = s.start + 50 → out.length + x.length < 2 ^ 31 →
      Prints (out ++ x) args' y (g ⟨args, out ++ x, s⟩)) :
    Prints out args' (x ++ y) (r.bind g) := by
  have hlen : (out ++ x).length = out.length + x.length := List.length_append
  constructor
  · intro hfit
    rw [List.length_append] at hfit
    rcases h.fits (by omega) with ⟨s, hs, rfl⟩
    rcases (hnext s hs (by omega)).fits (by simp only [hlen]; omega) with ⟨s', hs', hrun⟩
    refine ⟨s', hs', hrun.trans ?_⟩
    rw [List.append_assoc]
  · intro hfull
    rw [List.length_append] at hfull
    rcases Nat.lt_or_ge (out.length + x.length) (2 ^ 31) with hlt | hge
    · rcases h.fits hlt with ⟨s, hs, rfl⟩
      exact (hnext s hs hlt).full (by simp only [hlen]; omega)
    · rw [h.full hge]
      rfl

theorem prints_emitFrom {m : ByteMem} {x : List UInt8} {p left : ℕ} {st : VsprintfState}
    (hs : st.s.stop = st.s.start + 50) (hx : 0 ∉ x) (hp : m.Holds p (x ++ [0]))
    (hleft : x.length < left) (hst : st.out.length < 2 ^ 31) :
    Prints st.out st.args x (emitFrom m left p st) := by
  induction x generalizing p left st with
  | nil =>
      rcases hp with ⟨hin, hb, -⟩
      cases left with
      | zero => exact absurd hleft (Nat.not_lt_zero _)
      | succ left =>
          rw [emitFrom, if_pos hin, if_pos hb]
          constructor
          · intro _
            rw [List.append_nil]
            exact ⟨st.s, hs, rfl⟩
          · intro h
            rw [List.length_nil] at h
            omega
  | cons b x ih =>
      rcases hp with ⟨hin, hb, hp⟩
      have hne : b ≠ 0 := by
        rintro rfl
        exact hx List.mem_cons_self
      cases left with
      | zero => exact absurd hleft (Nat.not_lt_zero _)
      | succ left =>
          rw [emitFrom, if_pos hin, hb, if_neg hne]
          apply (prints_emit hs).bind
          intro s hs' hfit
          refine @ih (p + 1) left ⟨st.args, st.out ++ [b], s⟩ hs'
            (fun h => hx (List.mem_cons_of_mem _ h)) hp (Nat.lt_of_succ_lt_succ hleft) ?_
          simp only [List.length_append]
          exact hfit

theorem prints_emitString {m : ByteMem} {x : List UInt8} {p : ℕ} {st : VsprintfState}
    (hs : st.s.stop = st.s.start + 50) (hx : 0 ∉ x) (hp : m.Holds p (x ++ [0]))
    (hst : st.out.length < 2 ^ 31) : Prints st.out st.args x (emitString m p st) := by
  have hin := hp.inside_append_nul
  exact prints_emitFrom hs hx hp (by omega) hst

theorem zero_notMem_itosText {val base : UInt64} {length : ℤ} (hbase : 1 < base.toNat)
    (hbase' : base.toNat ≤ 16) : 0 ∉ itosText val base length := by
  intro h
  unfold itosText at h
  rw [List.mem_append] at h
  rcases h with h | h
  · split at h
    · exact absurd h (by decide)
    · cases h
  · rcases mem_padded digitByte hbase h with ⟨d, hd, hzero⟩
    exact (digitByte_ne (by omega)).1 hzero

theorem prints_emitNumber {val base : UInt64} {length : ℤ} {st : VsprintfState}
    (hs : st.s.stop = st.s.start + 50) (hbase : 1 < base.toNat) (hbase' : base.toNat ≤ 16)
    (hlen : (itosText val base length).length ≤ 49) (hst : st.out.length < 2 ^ 31) :
    Prints st.out st.args (itosText val base length) (emitNumber val base length st) := by
  rcases @itos_eq val base (st.s.start + 49) length st.s.traced hbase hbase'
    (by rw [ByteMem.traced_mem]; omega) (by rw [ByteMem.traced_mem]; omega) with
    ⟨t, hrun, hstart, hstop, hholds, -⟩
  rw [ByteMem.traced_mem] at hstart hstop
  rw [emitNumber, hrun, Option.bind_some]
  exact @prints_emitString t.mem _ _ ⟨st.args, st.out, t.mem⟩ (by rw [hstart, hstop, hs])
    (zero_notMem_itosText hbase hbase') hholds hst

theorem vaArg_cons {st : VsprintfState} {a : UInt64} {args : List UInt64}
    (h : st.args = a :: args) : vaArg st = some (a, ⟨args, st.out, st.s⟩) := by
  rw [vaArg, h]

/-- The sign is lost: what is stored is the numeral of `i` as `unsigned`. -/
theorem prints_convertInt {st : VsprintfState} {a : UInt64} {args : List UInt64}
    (hs : st.s.stop = st.s.start + 50) (hst : st.out.length < 2 ^ 31) (h : st.args = a :: args) :
    Prints st.out args (Piece.unsignedText a.toUInt32) (convertInt st) := by
  rw [convertInt, vaArg_cons h, Option.bind_some]
  unfold Piece.unsignedText
  simp only
  by_cases hi : a.toUInt32 = 0
  · rw [if_pos hi, if_pos hi]
    exact @prints_emit ⟨args, st.out, st.s⟩ _ hs
  · have htext : itosText a.toUInt32.toUInt64 10 (-1) = numeral digitByte 10 a.toUInt32.toNat := by
      unfold itosText
      rw [if_neg (by decide), List.nil_append, UInt32.toNat_toUInt64]
      exact padded_zero ..
    have hprints := @prints_emitNumber a.toUInt32.toUInt64 10 (-1) ⟨args, st.out, st.s⟩ hs
      (by decide) (by decide) (length_itosText_dec _) hst
    rw [htext] at hprints
    rw [if_neg hi, if_neg hi, if_neg UInt32.not_lt_zero, Option.bind_some]
    exact hprints

theorem formatFrom_lit {m : ByteMem} {b : UInt8} {f : List UInt8} {st : VsprintfState}
    (h : b ≠ 0) (h' : b ≠ '%'.toUInt8) :
    formatFrom m (b :: f) st = (emit b st).bind (formatFrom m f) := by
  rw [formatFrom.eq_def]
  simp only
  rw [if_neg h, if_pos h']

theorem formatFrom_conv {m : ByteMem} {b : UInt8} {f : List UInt8} {st : VsprintfState}
    (h : b ≠ 'l'.toUInt8) :
    formatFrom m ('%'.toUInt8 :: b :: f) st = (convert m b st).bind (formatFrom m f) := by
  rw [formatFrom.eq_def]
  simp only
  rw [if_neg (by decide), if_neg (by decide), if_neg h]

theorem formatFrom_l {m : ByteMem} {b : UInt8} {f : List UInt8} {st : VsprintfState} :
    formatFrom m ('%'.toUInt8 :: 'l'.toUInt8 :: b :: f) st =
      (convertInt st).bind (formatFrom m f) := by
  rw [formatFrom.eq_def]
  simp only
  rw [if_neg (by decide), if_neg (by decide), if_pos trivial]

/-- One piece of the format is stored, and the loop goes on behind it. -/
theorem formatFrom_code {m : ByteMem} {x : Piece} {f : List UInt8} {args : List UInt64}
    {st : VsprintfState} (hs : st.s.stop = st.s.start + 50) (hst : st.out.length < 2 ^ 31)
    (hx : x.Ok m) (h : st.args = x.args ++ args) :
    ∃ r, Prints st.out args x.printed r ∧
      formatFrom m (x.code ++ f) st = r.bind (formatFrom m f) := by
  cases x with
  | lit b =>
      obtain rfl : st.args = args := h
      exact ⟨_, prints_emit hs, formatFrom_lit hx.1 hx.2⟩
  | c a =>
      refine ⟨_, ?_, formatFrom_conv (by decide)⟩
      rw [convert, if_pos rfl, vaArg_cons h, Option.bind_some]
      exact @prints_emit ⟨args, st.out, st.s⟩ _ hs
  | s a x =>
      refine ⟨_, ?_, formatFrom_conv (by decide)⟩
      rw [convert, if_neg (by decide), if_neg (by decide), if_pos rfl, vaArg_cons h,
        Option.bind_some]
      exact @prints_emitString m x a.toNat ⟨args, st.out, st.s⟩ hs hx.1 hx.2 hst
  | d a =>
      refine ⟨_, ?_, formatFrom_conv (by decide)⟩
      rw [convert, if_neg (by decide), if_pos (Or.inl rfl)]
      exact prints_convertInt hs hst h
  | u a =>
      refine ⟨_, ?_, formatFrom_conv (by decide)⟩
      rw [convert, if_neg (by decide), if_pos (Or.inr rfl)]
      exact prints_convertInt hs hst h
  | p a =>
      refine ⟨_, ?_, formatFrom_conv (by decide)⟩
      rw [convert, if_neg (by decide), if_neg (by decide), if_neg (by decide), if_pos rfl,
        vaArg_cons h, Option.bind_some]
      exact @prints_emitNumber a 16 8 ⟨args, st.out, st.s⟩ hs (by decide) (by decide)
        (length_itosText_hex a) hst
  | l b a => exact ⟨_, prints_convertInt hs hst h, formatFrom_l⟩
  | other b =>
      obtain rfl : st.args = args := h
      rcases hx with ⟨-, hc, hd, hu, hs', hp, hl⟩
      refine ⟨_, ?_, formatFrom_conv hl⟩
      rw [convert, if_neg hc, if_neg (fun h => h.elim hd hu), if_neg hs', if_neg hp]
      exact prints_emit hs

/-- A text too long for `next` overflows it. -/
theorem formatFrom_full {m : ByteMem} {ps : List Piece} {f : List UInt8} {args : List UInt64}
    {st : VsprintfState} (hs : st.s.stop = st.s.start + 50) (hst : st.out.length < 2 ^ 31)
    (hok : ∀ x ∈ ps, x.Ok m) (h : st.args = ps.flatMap Piece.args ++ args)
    (hfull : 2 ^ 31 ≤ st.out.length + (ps.flatMap Piece.printed).length) :
    formatFrom m (ps.flatMap Piece.code ++ f) st = none := by
  induction ps generalizing st with
  | nil =>
      rw [List.flatMap_nil, List.length_nil] at hfull
      omega
  | cons x ps ih =>
      rw [List.flatMap_cons, List.append_assoc] at h ⊢
      rw [List.flatMap_cons, List.length_append] at hfull
      rcases @formatFrom_code m x (ps.flatMap Piece.code ++ f) _ st hs hst
        (hok x List.mem_cons_self) h with ⟨r, hprints, hrun⟩
      rw [hrun]
      rcases Nat.lt_or_ge (st.out.length + x.printed.length) (2 ^ 31) with hlt | hge
      · rcases hprints.fits hlt with ⟨s, hs', rfl⟩
        have hlen : (st.out ++ x.printed).length = st.out.length + x.printed.length :=
          List.length_append
        exact ih hs' (by simp only [hlen]; omega) (fun y hy => hok y (List.mem_cons_of_mem _ hy))
          rfl (by simp only [hlen]; omega)
      · rw [hprints.full hge]
        rfl

/-- The run over the pieces of a format. -/
theorem formatFrom_pieces {m : ByteMem} {ps : List Piece} {f : List UInt8} {args : List UInt64}
    {st : VsprintfState} (hs : st.s.stop = st.s.start + 50) (hok : ∀ x ∈ ps, x.Ok m)
    (h : st.args = ps.flatMap Piece.args ++ args)
    (hfit : st.out.length + (ps.flatMap Piece.printed).length < 2 ^ 31) :
    ∃ s : ByteMem, s.stop = s.start + 50 ∧ formatFrom m (ps.flatMap Piece.code ++ f) st =
      formatFrom m f ⟨args, st.out ++ ps.flatMap Piece.printed, s⟩ := by
  induction ps generalizing st with
  | nil =>
      refine ⟨st.s, hs, ?_⟩
      obtain rfl : st.args = args := h
      rw [List.flatMap_nil, List.flatMap_nil, List.nil_append, List.append_nil]
  | cons x ps ih =>
      rw [List.flatMap_cons, List.append_assoc] at h
      rw [List.flatMap_cons, List.length_append] at hfit
      rcases @formatFrom_code m x (ps.flatMap Piece.code ++ f) _ st hs (by omega)
        (hok x List.mem_cons_self) h with ⟨r, hprints, hrun⟩
      rcases hprints.fits (by omega) with ⟨s, hs', rfl⟩
      have hlen : (st.out ++ x.printed).length = st.out.length + x.printed.length :=
        List.length_append
      rcases @ih ⟨_, st.out ++ x.printed, s⟩ hs'
        (fun y hy => hok y (List.mem_cons_of_mem _ hy)) rfl (by simp only [hlen]; omega) with
        ⟨s', hs'', hrest⟩
      refine ⟨s', hs'', ?_⟩
      rw [List.flatMap_cons, List.append_assoc, hrun, Option.bind_some, hrest, List.flatMap_cons,
        List.append_assoc]

/-! ## The end of the format -/

theorem formatTail_lit {b : UInt8} {f : List UInt8} (h : b ≠ '%'.toUInt8) :
    formatTail (b :: f) = formatTail f := by
  rw [formatTail.eq_def]
  simp only
  rw [if_pos h]

theorem formatTail_conv {b : UInt8} {f : List UInt8} (h : b ≠ 'l'.toUInt8) :
    formatTail ('%'.toUInt8 :: b :: f) = formatTail f := by
  rw [formatTail.eq_def]
  simp only
  rw [if_neg (by decide), if_neg h]

theorem formatTail_l {b : UInt8} {f : List UInt8} :
    formatTail ('%'.toUInt8 :: 'l'.toUInt8 :: b :: f) = formatTail f := by
  rw [formatTail.eq_def]
  simp only
  rw [if_neg (by decide), if_pos trivial]

theorem formatTail_cases (f : List UInt8) :
    formatTail f = [] ∨ formatTail f = ['%'.toUInt8] ∨
      formatTail f = ['%'.toUInt8, 'l'.toUInt8] := by
  induction f using formatTail.induct with
  | case1 => exact Or.inl rfl
  | case2 b f hb ih =>
      rw [formatTail_lit hb]
      exact ih
  | case3 b hb =>
      obtain rfl := not_not.1 hb
      exact Or.inr (Or.inl rfl)
  | case4 b hb =>
      obtain rfl := not_not.1 hb
      exact Or.inr (Or.inr rfl)
  | case5 b hb c f ih =>
      obtain rfl := not_not.1 hb
      rw [formatTail_l]
      exact ih
  | case6 b hb c f hc ih =>
      obtain rfl := not_not.1 hb
      rw [formatTail_conv hc]
      exact ih

/-- Every character but 'l' makes a piece with the '%' before it. -/
theorem exists_piece {m : ByteMem} {a : UInt64} {b : UInt8} (ha : m.Holds a.toNat [0])
    (hb : b ≠ 0) (hl : b ≠ 'l'.toUInt8) : ∃ x : Piece, x.Ok m ∧ x.code = ['%'.toUInt8, b] := by
  by_cases hc : b = 'c'.toUInt8
  · exact ⟨.c a, trivial, by rw [hc]; rfl⟩
  by_cases hd : b = 'd'.toUInt8
  · exact ⟨.d a, trivial, by rw [hd]; rfl⟩
  by_cases hu : b = 'u'.toUInt8
  · exact ⟨.u a, trivial, by rw [hu]; rfl⟩
  by_cases hs : b = 's'.toUInt8
  · exact ⟨.s a [], ⟨List.not_mem_nil, ha⟩, by rw [hs]; rfl⟩
  by_cases hp : b = 'p'.toUInt8
  · exact ⟨.p a, trivial, by rw [hp]; rfl⟩
  exact ⟨.other b, ⟨hb, hc, hd, hu, hs, hp, hl⟩, rfl⟩

/-- Every format has arguments that fit it. -/
theorem exists_supplied {m : ByteMem} {a : UInt64} (ha : m.Holds a.toNat [0]) {f : List UInt8}
    (hf : 0 ∉ f) : ∃ args ps, Supplied m f args ps := by
  suffices hsuff : ∃ ps : List Piece, (∀ x ∈ ps, x.Ok m) ∧
      f = ps.flatMap Piece.code ++ formatTail f by
    rcases hsuff with ⟨ps, hok, hformat⟩
    exact ⟨_, ps, hok, hformat, List.prefix_rfl⟩
  -- one more piece in front
  have hcons : ∀ {x : Piece} {f f' : List UInt8}, x.Ok m → f' = x.code ++ f →
      formatTail f' = formatTail f →
      (∃ ps : List Piece, (∀ x ∈ ps, x.Ok m) ∧ f = ps.flatMap Piece.code ++ formatTail f) →
      ∃ ps : List Piece, (∀ x ∈ ps, x.Ok m) ∧ f' = ps.flatMap Piece.code ++ formatTail f' := by
    rintro x f f' hx rfl htail ⟨ps, hok, hformat⟩
    refine ⟨x :: ps, ?_, ?_⟩
    · intro y hy
      rcases List.mem_cons.1 hy with rfl | hy
      · exact hx
      · exact hok y hy
    · rw [htail, List.flatMap_cons, List.append_assoc, ← hformat]
  induction f using formatTail.induct with
  | case1 => exact ⟨[], fun _ h => absurd h List.not_mem_nil, rfl⟩
  | case2 b f hb ih =>
      have hb0 : b ≠ 0 := fun h => hf (h ▸ List.mem_cons_self)
      exact hcons (x := .lit b) ⟨hb0, hb⟩ rfl (formatTail_lit hb)
        (ih fun h => hf (List.mem_cons_of_mem _ h))
  | case3 b hb =>
      obtain rfl := not_not.1 hb
      exact ⟨[], fun _ h => absurd h List.not_mem_nil, rfl⟩
  | case4 b hb =>
      obtain rfl := not_not.1 hb
      exact ⟨[], fun _ h => absurd h List.not_mem_nil, rfl⟩
  | case5 b hb c f ih =>
      obtain rfl := not_not.1 hb
      have hc0 : c ≠ 0 := fun h =>
        hf (h ▸ List.mem_cons_of_mem _ (List.mem_cons_of_mem _ List.mem_cons_self))
      exact hcons (x := .l c a) hc0 rfl formatTail_l
        (ih fun h => hf (List.mem_cons_of_mem _ (List.mem_cons_of_mem _
          (List.mem_cons_of_mem _ h))))
  | case6 b hb c f hc ih =>
      obtain rfl := not_not.1 hb
      have hc0 : c ≠ 0 := fun h => hf (h ▸ List.mem_cons_of_mem _ List.mem_cons_self)
      rcases exists_piece ha hc0 hc with ⟨x, hx, hcode⟩
      exact hcons hx (by rw [hcode]; rfl) (formatTail_conv hc)
        (ih fun h => hf (List.mem_cons_of_mem _ (List.mem_cons_of_mem _ h)))

/-! ## The whole run -/

/-- A format that ends within a piece is read past its NUL. -/
theorem formatFrom_tail {m : ByteMem} {f : List UInt8} {st : VsprintfState}
    (hf : formatTail f ≠ []) : formatFrom m (formatTail f ++ [0]) st = none := by
  have hpast : formatFrom m [] = fun _ => none := by
    funext st
    rw [formatFrom]
  rcases formatTail_cases f with h | h | h
  · exact absurd h hf
  · rw [h]
    refine (formatFrom_conv (by decide)).trans ?_
    rw [hpast]
    cases convert m 0 st <;> rfl
  · rw [h]
    refine formatFrom_l.trans ?_
    rw [hpast]
    cases convertInt st <;> rfl

theorem vsprintf_eq {m s : ByteMem} {fmt : List UInt8} {args : List UInt64}
    (hs : s.stop = s.start + 50) : ∃ s' : ByteMem, s'.stop = s'.start + 50 ∧
      vsprintf m fmt args s =
        (formatFrom m fmt ⟨args, [], s'⟩).map fun st => (st.out.length, st.out) := by
  have hin : s.traced.mem.Inside (s.start + 49) 1 := by
    rw [ByteMem.traced_mem]
    constructor <;> omega
  rw [vsprintf, TraceMem.store_inside hin, Option.bind_some]
  refine ⟨_, ?_, rfl⟩
  rw [ByteMem.put_start, ByteMem.put_stop, ByteMem.traced_mem, hs]

/-- A complete format is worked off to its end. -/
theorem vsprintf_complete {m s : ByteMem} {ps : List Piece} {args : List UInt64}
    (hs : s.stop = s.start + 50) (hok : ∀ x ∈ ps, x.Ok m) (hargs : ps.flatMap Piece.args <+: args)
    (hfit : (ps.flatMap Piece.printed).length + 1 < 2 ^ 31) :
    vsprintf m (ps.flatMap Piece.code ++ [0]) args s =
      some ((ps.flatMap Piece.printed).length + 1, ps.flatMap Piece.printed ++ [0]) := by
  rcases hargs with ⟨rest, rfl⟩
  rcases @vsprintf_eq m s (ps.flatMap Piece.code ++ [0]) (ps.flatMap Piece.args ++ rest) hs with
    ⟨s', hs', hrun⟩
  rcases @formatFrom_pieces m ps [0] rest ⟨ps.flatMap Piece.args ++ rest, [], s'⟩ hs' hok rfl
    (by rw [List.length_nil]; omega) with ⟨s'', -, hpieces⟩
  rw [hrun, hpieces, formatFrom, if_pos rfl, emit, if_pos (by simpa using hfit), Option.map_some]
  simp only [List.nil_append, List.length_append, List.length_singleton]

/-- A text that leaves no room for the NUL overflows `next`. -/
theorem vsprintf_overflow {m s : ByteMem} {ps : List Piece} {args : List UInt64}
    (hs : s.stop = s.start + 50) (hok : ∀ x ∈ ps, x.Ok m) (hargs : ps.flatMap Piece.args <+: args)
    (hfull : 2 ^ 31 ≤ (ps.flatMap Piece.printed).length + 1) :
    vsprintf m (ps.flatMap Piece.code ++ [0]) args s = none := by
  rcases hargs with ⟨rest, rfl⟩
  rcases @vsprintf_eq m s (ps.flatMap Piece.code ++ [0]) (ps.flatMap Piece.args ++ rest) hs with
    ⟨s', hs', hrun⟩
  rw [hrun]
  rcases Nat.lt_or_ge (ps.flatMap Piece.printed).length (2 ^ 31) with hlt | hge
  · rcases @formatFrom_pieces m ps [0] rest ⟨ps.flatMap Piece.args ++ rest, [], s'⟩ hs' hok rfl
      (by rw [List.length_nil]; omega) with ⟨s'', -, hpieces⟩
    rw [hpieces, formatFrom, if_pos rfl, emit, if_neg (by simpa using hfull)]
    rfl
  · rw [@formatFrom_full m ps [0] rest ⟨ps.flatMap Piece.args ++ rest, [], s'⟩ hs'
      (Nat.two_pow_pos 31) hok rfl (by rw [List.length_nil]; omega)]
    rfl

/-- A format that ends within a piece is not. -/
theorem vsprintf_incomplete {m s : ByteMem} {ps : List Piece} {f : List UInt8}
    {args : List UInt64} (hs : s.stop = s.start + 50) (h : Supplied m f args ps)
    (hf : formatTail f ≠ []) : vsprintf m (f ++ [0]) args s = none := by
  rcases h.args with ⟨rest, rfl⟩
  rcases @vsprintf_eq m s (f ++ [0]) (ps.flatMap Piece.args ++ rest) hs with ⟨s', hs', hrun⟩
  have hformat : f ++ [0] = ps.flatMap Piece.code ++ (formatTail f ++ [0]) := by
    rw [← List.append_assoc, ← h.format]
  rw [hrun, hformat]
  rcases Nat.lt_or_ge (ps.flatMap Piece.printed).length (2 ^ 31) with hlt | hge
  · rcases @formatFrom_pieces m ps (formatTail f ++ [0]) rest
      ⟨ps.flatMap Piece.args ++ rest, [], s'⟩ hs' h.ok rfl (by rw [List.length_nil]; omega) with
      ⟨s'', -, hpieces⟩
    rw [hpieces, formatFrom_tail hf]
    rfl
  · rw [@formatFrom_full m ps (formatTail f ++ [0]) rest ⟨ps.flatMap Piece.args ++ rest, [], s'⟩
      hs' (Nat.two_pow_pos 31) h.ok rfl (by rw [List.length_nil]; omega)]
    rfl

/-- `vsprintf` comes back, without a look behind the NUL of its format, exactly if the format is
complete and `next` can count the text. -/
theorem vsprintf_returns_iff {m s : ByteMem} {ps : List Piece} {f : List UInt8}
    {args : List UInt64} (hs : s.stop = s.start + 50) (h : Supplied m f args ps) :
    (∃ r, vsprintf m (f ++ [0]) args s = some r) ↔
      Complete f ∧ (ps.flatMap Piece.printed).length + 1 < 2 ^ 31 := by
  by_cases htail : Complete f
  · have hformat := h.format
    rw [show formatTail f = [] from htail, List.append_nil] at hformat
    rw [hformat] at htail ⊢
    constructor
    · rintro ⟨r, hr⟩
      refine ⟨htail, ?_⟩
      by_contra hfull
      rw [vsprintf_overflow hs h.ok h.args (by omega)] at hr
      cases hr
    · rintro ⟨-, hfit⟩
      exact ⟨_, vsprintf_complete hs h.ok h.args hfit⟩
  · constructor
    · rintro ⟨r, hr⟩
      rw [vsprintf_incomplete hs h htail] at hr
      cases hr
    · rintro ⟨hcomplete, -⟩
      exact absurd hcomplete htail

/-- An empty string at 1. -/
def emptyString : ByteMem := ⟨1, 2, fun _ => 0⟩

/-- Some scratch buffer. -/
def scratch : ByteMem := ⟨100, 150, fun _ => 255⟩

/-- "ok" at 1. -/
def okString : ByteMem :=
  ⟨1, 4, fun a => if a = 1 then 'o'.toUInt8 else if a = 2 then 'k'.toUInt8 else 0⟩

/-- "%s=%d;" with "ok" and 5. -/
def okPieces : List Piece :=
  [.s 1 ['o'.toUInt8, 'k'.toUInt8], .lit '='.toUInt8, .d 5, .lit ';'.toUInt8]

theorem okPieces_ok : ∀ x ∈ okPieces, x.Ok okString := by
  unfold okPieces
  simp only [List.forall_mem_cons]
  refine ⟨?_, ?_, trivial, ?_, fun _ h => absurd h List.not_mem_nil⟩
  · exact ⟨by decide, by decide⟩
  · exact ⟨by decide, by decide⟩
  · exact ⟨by decide, by decide⟩

/-- "%s=%d;" with "ok" and 5. -/
theorem vsprintf_returns_ok :
    ∃ r, vsprintf okString (['%', 's', '=', '%', 'd', ';'].map Char.toUInt8 ++ [0]) [1, 5] scratch =
      some r :=
  (@vsprintf_returns_iff okString scratch okPieces _ [1, 5] rfl
    ⟨okPieces_ok, rfl, List.prefix_rfl⟩).2 ⟨by decide, by decide⟩

/-- "%" is read past its NUL. -/
theorem not_vsprintf_returns : ¬ ∀ m s f args ps, s.stop = s.start + 50 →
    Supplied m f args ps → ∃ r, vsprintf m (f ++ [0]) args s = some r := by
  intro h
  rcases h emptyString scratch ['%'.toUInt8] [] [] rfl
    ⟨fun _ h => absurd h List.not_mem_nil, rfl, List.prefix_rfl⟩ with ⟨r, hr⟩
  cases hr

end OsLab
