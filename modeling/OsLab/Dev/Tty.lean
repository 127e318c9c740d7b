import OsLab.Klib.String

/-! # The screen of a terminal (`dev_tty.c`)

A terminal keeps the characters of its screen in `buf`, row after row, with a cursor
that points into it, and marks in `dirty` the cells that have to be drawn again.
When the cursor comes to `end`, the rows move up by one.

Pointers are indices from `buf` on, so that `end` is `size`. A function answers
`none` when it stores outside an array, or moves a pointer below its start.
-/

namespace OsLab

open Copy

/-- `struct character`. -/
structure Character where
  metadata : ℕ
  ch : UInt8

/-- `tty_defaultch`. -/
def ttyDefaultch : Character := ⟨0, 0⟩

/-- `tty_t`, without the locks, the input queue and the room for sprites. -/
structure Tty where
  display : ℕ
  lines : ℕ
  columns : ℕ
  size : ℕ
  buf : ℕ → Character
  cursor : ℕ
  dirty : ℕ → UInt8
  /-- ghost: the calls of `tty_upd_scrollup` so far -/
  scrolls : ℕ

/-- `p - k` for a pointer `p`. -/
def ptrSub (p k : ℕ) : Option ℕ := if k ≤ p then some (p - k) else none

/-- `buf[i] = c`. -/
def Tty.setCell (i : ℕ) (c : Character) (t : Tty) : Option Tty :=
  if i < t.size then some { t with buf := Function.update t.buf i c } else none

/-- `for (int i = 0; i < n; i++)`. -/
def forTo (body : ℕ → Tty → Option Tty) : ℕ → Tty → Option Tty
  | 0, t => some t
  | n + 1, t => (forTo body n t).bind (body n)

/-! ## State changes -/

/-- `tty_upd_scrollup`. -/
def ttyUpdScrollup (t : Tty) : Option Tty :=
  let moveSz := t.columns * (t.lines - 1)
  (moveCells t.size 0 t.columns moveSz t.buf).bind fun buf =>
    (moveCells t.size 0 t.columns moveSz t.dirty).bind fun dirty =>
      (ptrSub t.cursor t.columns).bind fun cursor =>
        forTo (fun i t => t.setCell (t.cursor + i) ttyDefaultch) t.columns
          { t with buf := buf, dirty := dirty, cursor := cursor, scrolls := t.scrolls + 1 }

/-- `tty_upd_cr`. -/
def ttyUpdCr (t : Tty) : Tty := { t with cursor := t.cursor - t.cursor % t.columns }

/-- `tty_upd_lf`. -/
def ttyUpdLf (t : Tty) : Tty := { t with cursor := t.cursor + t.columns }

/-- `tty_upd_backsp`. -/
def ttyUpdBacksp (t : Tty) : Option Tty :=
  if t.cursor > 0 then
    { t with cursor := t.cursor - 1 }.setCell (t.cursor - 1)
      { t.buf (t.cursor - 1) with ch := 0 }
  else some t

/-- `tty_upd_putc`. -/
def ttyUpdPutc (ch : UInt8) (t : Tty) : Option Tty :=
  (t.setCell t.cursor { t.buf t.cursor with ch := ch }).map fun t =>
    { t with cursor := t.cursor + 1 }

/-! ## Marks -/

/-- `tty_mark`. -/
def ttyMark (p : ℕ) (t : Tty) : Option Tty :=
  if p < t.size then some { t with dirty := Function.update t.dirty p 1 } else none

/-- `tty_mark_line`. -/
def ttyMarkLine (p : ℕ) (t : Tty) : Option Tty :=
  forTo (fun i => ttyMark (p - p % t.columns + i)) t.columns t

/-- `tty_mark_all`. -/
def ttyMarkAll (t : Tty) : Option Tty := forTo ttyMark t.size t

/-! ## Implementation -/

/-- `tty_putc`. -/
def ttyPutc (ch : UInt8) (t : Tty) : Option Tty :=
  if ch = '\r'.toUInt8 then
    let t := ttyUpdCr t
    ttyMarkLine t.cursor t
  else if ch = '\x08'.toUInt8 then
    (ttyUpdBacksp t).bind fun t =>
      (ttyMark t.cursor t).bind fun t => ttyMark (t.cursor + 1) t
  else if ch = '\n'.toUInt8 then
    let t := ttyUpdLf (ttyUpdCr t)
    if t.cursor = t.size then (ttyUpdScrollup t).bind ttyMarkAll
    else
      (ptrSub t.cursor t.columns).bind fun p =>
        (ttyMarkLine p t).bind fun t => ttyMarkLine t.cursor t
  else
    (ttyUpdPutc ch t).bind fun t =>
      if t.cursor = t.size then (ttyUpdScrollup t).bind ttyMarkAll
      else
        (ptrSub t.cursor 1).bind fun p => (ttyMark p t).bind fun t => ttyMark t.cursor t

/-- The loop of `tty_write`. -/
def ttyPutcs (chs : List UInt8) (t : Tty) : Option Tty := chs.foldlM (fun t ch => ttyPutc ch t) t

/-- The screen `tty_init` leaves, on a frame buffer with room for `lines` rows of `columns`
characters. -/
def ttyInit (display lines columns : ℕ) : Tty where
  display := display
  lines := lines
  columns := columns
  size := columns * lines
  buf := fun _ => ttyDefaultch
  cursor := 0
  dirty := fun _ => 0
  scrolls := 0

/-! ## What the parts do -/

/-- A screen with at least one cell, and the cursor on it. -/
structure Tty.Wf (t : Tty) : Prop where
  lines_pos : 1 ≤ t.lines
  columns_pos : 1 ≤ t.columns
  size_eq : t.size = t.columns * t.lines
  cursor_lt : t.cursor < t.size

theorem ttyInit_wf (display : ℕ) {lines columns : ℕ} (hl : 1 ≤ lines) (hc : 1 ≤ columns) :
    (ttyInit display lines columns).Wf :=
  ⟨hl, hc, rfl, Nat.mul_pos hc hl⟩

theorem Tty.Wf.columns_le {t : Tty} (hw : t.Wf) : t.columns ≤ t.size := by
  rw [hw.size_eq]
  exact Nat.le_mul_of_pos_right _ hw.lines_pos

section Parts

variable {t : Tty} {p n : ℕ} {ch : UInt8}

theorem ptrSub_eq {k : ℕ} (h : k ≤ p) : ptrSub p k = some (p - k) := if_pos h

theorem forTo_mark (h : p + n ≤ t.size) :
    forTo (fun i => ttyMark (p + i)) n t = some { t with dirty := fill p n 1 t.dirty } := by
  induction n with
  | zero => rw [fill_zero]; rfl
  | succ n ih =>
      rw [forTo, ih (by omega), fill_succ]
      exact if_pos (by simp only; omega)

theorem forTo_blank (h : t.cursor + n ≤ t.size) :
    forTo (fun i t => t.setCell (t.cursor + i) ttyDefaultch) n t =
      some { t with buf := fill t.cursor n ttyDefaultch t.buf } := by
  induction n with
  | zero => rw [fill_zero]; rfl
  | succ n ih =>
      rw [forTo, ih (by omega), fill_succ]
      exact if_pos (by simp only; omega)

theorem ttyMark_eq (h : p < t.size) :
    ttyMark p t = some { t with dirty := Function.update t.dirty p 1 } :=
  if_pos h

theorem ttyMarkAll_eq : ttyMarkAll t = some { t with dirty := fill 0 t.size 1 t.dirty } := by
  rw [← forTo_mark (Nat.zero_add t.size).le]
  unfold ttyMarkAll
  simp only [Nat.zero_add]

/-- The row of a cell lies within the screen. -/
theorem rowEnd_le {c l : ℕ} (h : p < c * l) : p - p % c + c ≤ c * l := by
  have hdiv : p / c < l := Nat.div_lt_of_lt_mul h
  have hrow : c * (p / c + 1) ≤ c * l := Nat.mul_le_mul_left c hdiv
  have hmod := Nat.div_add_mod p c
  rw [Nat.mul_succ] at hrow
  omega

theorem sub_mod_mod (p c : ℕ) : (p - p % c) % c = 0 :=
  Nat.sub_mod_eq_zero_of_mod_eq (Nat.mod_mod p c).symm

theorem ttyMarkLine_eq (hsize : t.size = t.columns * t.lines) (hp : p < t.size) :
    ttyMarkLine p t =
      some { t with dirty := fill (p - p % t.columns) t.columns 1 t.dirty } := by
  apply forTo_mark
  rw [hsize] at hp ⊢
  exact rowEnd_le hp

/-- The screen moved up by a row: what `tty_upd_scrollup` and `tty_mark_all` make of a screen
with the cursor at `end`. -/
def Tty.scrolled (t : Tty) : Tty :=
  { t with
    buf := fill (t.size - t.columns) t.columns ttyDefaultch
      (copyUp 0 t.columns (t.size - t.columns) t.buf)
    dirty := fill 0 t.size 1 (copyUp 0 t.columns (t.size - t.columns) t.dirty)
    cursor := t.size - t.columns
    scrolls := t.scrolls + 1 }

theorem Tty.scrolled_eq (hl : 1 ≤ t.lines) (hsize : t.size = t.columns * t.lines)
    (hcur : t.cursor = t.size) : (ttyUpdScrollup t).bind ttyMarkAll = some t.scrolled := by
  have hle : t.columns ≤ t.size := by
    rw [hsize]
    exact Nat.le_mul_of_pos_right _ hl
  have hmove : t.columns * (t.lines - 1) = t.size - t.columns := by
    rw [hsize, Nat.mul_sub, Nat.mul_one]
  have hcells : ∀ {β : Type} (m : ℕ → β), moveCells t.size 0 t.columns (t.size - t.columns) m =
      some (copyUp 0 t.columns (t.size - t.columns) m) := by
    intro β m
    exact if_pos ⟨Nat.zero_le _, by omega⟩
  unfold ttyUpdScrollup
  rw [hmove]
  simp only [hcells, Option.bind_some, hcur, ptrSub_eq hle]
  rw [forTo_blank (by simp only; omega), Option.bind_some, ttyMarkAll_eq]
  rfl

theorem Tty.scrolled_buf {i : ℕ} (hle : t.columns ≤ t.size) (hi : i < t.size) :
    t.scrolled.buf i = if i + t.columns < t.size then t.buf (i + t.columns) else ttyDefaultch := by
  unfold Tty.scrolled fill
  simp only
  by_cases hlast : i + t.columns < t.size
  · rw [if_neg (by omega), if_pos hlast, copyUp_apply (Nat.zero_le _), if_pos (by omega),
      Nat.sub_zero, Nat.add_comm]
  · rw [if_pos (by omega), if_neg hlast]

end Parts

/-! ## One character -/

section Putc

variable {t : Tty} {ch : UInt8}

theorem ttyPutc_cr (hw : t.Wf) : ttyPutc '\r'.toUInt8 t =
    some { t with
      cursor := t.cursor - t.cursor % t.columns
      dirty := fill (t.cursor - t.cursor % t.columns) t.columns 1 t.dirty } := by
  have hlt := hw.cursor_lt
  unfold ttyPutc
  rw [if_pos rfl]
  unfold ttyUpdCr
  simp only
  rw [ttyMarkLine_eq (by exact hw.size_eq) (by simp only; omega)]
  simp only [sub_mod_mod, Nat.sub_zero]

/-- A backspace marks the cell behind the cursor too, which a screen of one cell does not have. -/
theorem ttyPutc_backsp (hw : t.Wf) : ttyPutc '\x08'.toUInt8 t =
    if t.cursor - 1 + 1 < t.size then some { t with
      cursor := t.cursor - 1
      buf :=
        if 0 < t.cursor then
          Function.update t.buf (t.cursor - 1) { t.buf (t.cursor - 1) with ch := 0 }
        else t.buf
      dirty := fill (t.cursor - 1) 2 1 t.dirty }
    else none := by
  have hlt := hw.cursor_lt
  unfold ttyPutc
  rw [if_neg (by decide), if_pos rfl]
  -- at the first cell of the screen the cursor stays
  have hupd : ttyUpdBacksp t = some { t with
      cursor := t.cursor - 1
      buf :=
        if 0 < t.cursor then
          Function.update t.buf (t.cursor - 1) { t.buf (t.cursor - 1) with ch := 0 }
        else t.buf } := by
    unfold ttyUpdBacksp
    by_cases hpos : 0 < t.cursor
    · simp only [if_pos hpos]
      exact if_pos (by simp only; omega)
    · simp only [if_neg hpos, show t.cursor - 1 = t.cursor by omega]
  rw [hupd, Option.bind_some, ttyMark_eq (by simp only; omega), Option.bind_some, fill_succ,
    fill_one]
  rfl

/-- A line feed above the last row. -/
theorem ttyPutc_lf (hw : t.Wf) (hrow : t.cursor - t.cursor % t.columns + t.columns < t.size) :
    ttyPutc '\n'.toUInt8 t = some { t with
      cursor := t.cursor - t.cursor % t.columns + t.columns
      dirty := fill (t.cursor - t.cursor % t.columns) (t.columns + t.columns) 1 t.dirty } := by
  unfold ttyPutc
  rw [if_neg (by decide), if_neg (by decide), if_pos rfl]
  unfold ttyUpdLf ttyUpdCr
  simp only
  rw [if_neg (Nat.ne_of_lt hrow), ptrSub_eq (Nat.le_add_left _ _), Option.bind_some,
    Nat.add_sub_cancel, ttyMarkLine_eq (by exact hw.size_eq) (by simp only; omega),
    Option.bind_some, ttyMarkLine_eq (by exact hw.size_eq) (by simp only; omega)]
  simp only [Nat.add_mod_right, sub_mod_mod, Nat.sub_zero, fill_add]

/-- A line feed on the last row. -/
theorem ttyPutc_lf_last (hw : t.Wf)
    (hrow : t.cursor - t.cursor % t.columns + t.columns = t.size) :
    ttyPutc '\n'.toUInt8 t = some { t with cursor := t.size }.scrolled := by
  unfold ttyPutc
  rw [if_neg (by decide), if_neg (by decide), if_pos rfl]
  unfold ttyUpdLf ttyUpdCr
  rw [if_pos hrow]
  simp only [hrow]
  exact Tty.scrolled_eq hw.lines_pos hw.size_eq rfl

section Printed

variable (hcr : ch ≠ '\r'.toUInt8) (hbs : ch ≠ '\x08'.toUInt8) (hlf : ch ≠ '\n'.toUInt8)

include hcr hbs hlf

/-- A character above the last cell. -/
theorem ttyPutc_char (hw : t.Wf) (hcell : t.cursor + 1 < t.size) :
    ttyPutc ch t = some { t with
      buf := Function.update t.buf t.cursor { t.buf t.cursor with ch := ch }
      cursor := t.cursor + 1
      dirty := fill t.cursor 2 1 t.dirty } := by
  unfold ttyPutc
  rw [if_neg hcr, if_neg hbs, if_neg hlf]
  unfold ttyUpdPutc Tty.setCell
  rw [if_pos hw.cursor_lt]
  simp only [Option.map_some, Option.bind_some]
  rw [if_neg (Nat.ne_of_lt hcell), ptrSub_eq (Nat.le_add_left _ _), Option.bind_some,
    Nat.add_sub_cancel, ttyMark_eq (by exact hw.cursor_lt), Option.bind_some,
    ttyMark_eq (by exact hcell), fill_succ, fill_one]

/-- A character in the last cell. -/
theorem ttyPutc_char_last (hw : t.Wf) (hcell : t.cursor + 1 = t.size) :
    ttyPutc ch t = some { t with
      buf := Function.update t.buf t.cursor { t.buf t.cursor with ch := ch }
      cursor := t.size }.scrolled := by
  unfold ttyPutc
  rw [if_neg hcr, if_neg hbs, if_neg hlf]
  unfold ttyUpdPutc Tty.setCell
  rw [if_pos hw.cursor_lt]
  simp only [Option.map_some, Option.bind_some]
  rw [if_pos hcell]
  simp only [hcell]
  exact Tty.scrolled_eq hw.lines_pos hw.size_eq rfl

end Printed

end Putc

/-- What `tty_putc` does to a screen: a case for each byte that is treated in its own way, and two
cases where the screen may have to scroll. -/
inductive PutcTo (t : Tty) : UInt8 → Tty → Prop
  | cr : PutcTo t '\r'.toUInt8 { t with
      cursor := t.cursor - t.cursor % t.columns
      dirty := fill (t.cursor - t.cursor % t.columns) t.columns 1 t.dirty }
  | backsp : PutcTo t '\x08'.toUInt8 { t with
      cursor := t.cursor - 1
      buf :=
        if 0 < t.cursor then
          Function.update t.buf (t.cursor - 1) { t.buf (t.cursor - 1) with ch := 0 }
        else t.buf
      dirty := fill (t.cursor - 1) 2 1 t.dirty }
  | lf : t.cursor - t.cursor % t.columns + t.columns < t.size →
      PutcTo t '\n'.toUInt8 { t with
        cursor := t.cursor - t.cursor % t.columns + t.columns
        dirty := fill (t.cursor - t.cursor % t.columns) (t.columns + t.columns) 1 t.dirty }
  | lfLast : t.cursor - t.cursor % t.columns + t.columns = t.size →
      PutcTo t '\n'.toUInt8 { t with cursor := t.size }.scrolled
  | char {ch : UInt8} : ch ≠ '\r'.toUInt8 → ch ≠ '\x08'.toUInt8 → ch ≠ '\n'.toUInt8 →
      t.cursor + 1 < t.size →
      PutcTo t ch { t with
        buf := Function.update t.buf t.cursor { t.buf t.cursor with ch := ch }
        cursor := t.cursor + 1
        dirty := fill t.cursor 2 1 t.dirty }
  | charLast {ch : UInt8} : ch ≠ '\r'.toUInt8 → ch ≠ '\x08'.toUInt8 → ch ≠ '\n'.toUInt8 →
      t.cursor + 1 = t.size →
      PutcTo t ch { t with
        buf := Function.update t.buf t.cursor { t.buf t.cursor with ch := ch }
        cursor := t.size }.scrolled

section Cases

variable {t t' : Tty} {ch : UInt8}

/-- `tty_putc` is one of the cases, or stores outside a screen of one cell. -/
theorem ttyPutc_cases (hw : t.Wf) (ch : UInt8) :
    (∃ t', ttyPutc ch t = some t' ∧ PutcTo t ch t') ∨ (ttyPutc ch t = none ∧ t.size = 1) := by
  have hlt := hw.cursor_lt
  by_cases hcr : ch = '\r'.toUInt8
  · subst hcr
    exact Or.inl ⟨_, ttyPutc_cr hw, .cr⟩
  by_cases hbs : ch = '\x08'.toUInt8
  · subst hbs
    rw [ttyPutc_backsp hw]
    split
    · exact Or.inl ⟨_, rfl, .backsp⟩
    · exact Or.inr ⟨rfl, by omega⟩
  by_cases hlf : ch = '\n'.toUInt8
  · subst hlf
    have hrow : t.cursor - t.cursor % t.columns + t.columns ≤ t.size := by
      rw [hw.size_eq] at hlt ⊢
      exact rowEnd_le hlt
    -- the cursor comes to `end` on the last row only
    rcases Nat.lt_or_eq_of_le hrow with hlt | heq
    · exact Or.inl ⟨_, ttyPutc_lf hw hlt, .lf hlt⟩
    · exact Or.inl ⟨_, ttyPutc_lf_last hw heq, .lfLast heq⟩
  -- a printed character comes to `end` from the last cell only
  · rcases Nat.lt_or_eq_of_le hlt with hlt | heq
    · exact Or.inl ⟨_, ttyPutc_char hcr hbs hlf hw hlt, .char hcr hbs hlf hlt⟩
    · exact Or.inl ⟨_, ttyPutc_char_last hcr hbs hlf hw heq, .charLast hcr hbs hlf heq⟩

theorem putcTo_of_ttyPutc (hw : t.Wf) (h : ttyPutc ch t = some t') : PutcTo t ch t' := by
  rcases ttyPutc_cases hw ch with ⟨u, hu, hcase⟩ | ⟨hnone, -⟩
  · obtain rfl := Option.some.inj (hu.symm.trans h)
    exact hcase
  · cases hnone.symm.trans h

/-- What a screen keeps. -/
structure SameScreen (t t' : Tty) : Prop where
  display : t'.display = t.display
  lines : t'.lines = t.lines
  columns : t'.columns = t.columns
  size : t'.size = t.size

theorem SameScreen.trans {u : Tty} (h : SameScreen t t') (h' : SameScreen t' u) : SameScreen t u := by
  constructor
  · exact h'.display.trans h.display
  · exact h'.lines.trans h.lines
  · exact h'.columns.trans h.columns
  · exact h'.size.trans h.size

theorem PutcTo.same (h : PutcTo t ch t') : SameScreen t t' := by
  cases h <;> exact ⟨rfl, rfl, rfl, rfl⟩

theorem PutcTo.cursor_lt (h : PutcTo t ch t') (hw : t.Wf) : t'.cursor < t.size := by
  have hlt := hw.cursor_lt
  have hcol := hw.columns_le
  have hpos := hw.columns_pos
  cases h with
  | cr => exact Nat.lt_of_le_of_lt (Nat.sub_le _ _) hlt
  | backsp => exact Nat.lt_of_le_of_lt (Nat.sub_le _ _) hlt
  | lf hrow => exact hrow
  | char _ _ _ hcell => exact hcell
  | lfLast _ =>
      change t.size - t.columns < t.size
      omega
  | charLast _ _ _ _ =>
      change t.size - t.columns < t.size
      omega

/-- The cursor stays on the screen. -/
theorem PutcTo.wf (h : PutcTo t ch t') (hw : t.Wf) : t'.Wf := by
  have hcur := h.cursor_lt hw
  rcases h.same with ⟨-, hl, hc, hs⟩
  refine ⟨?_, ?_, ?_, ?_⟩
  · rw [hl]
    exact hw.lines_pos
  · rw [hc]
    exact hw.columns_pos
  · rw [hs, hc, hl]
    exact hw.size_eq
  · rw [hs]
    exact hcur

end Cases

end OsLab
