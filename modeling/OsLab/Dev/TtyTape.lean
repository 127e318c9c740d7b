import Mathlib.Data.List.Induction
import OsLab.Dev.Tty

/-! # The screen is a window of an endless tape

On a tape that never ends nothing has to scroll: the bytes are written one after the
other, and the screen is the window of `lines` rows from row `top` on, which goes
down a row when the position leaves it. `Shows` relates a screen to the tape, and
`tty_putc` keeps it.
-/

namespace OsLab

open Copy

/-- A tape of characters, 0 where nothing is written, and the first row of the window. -/
structure Tape where
  cell : ℕ → UInt8
  pos : ℕ
  top : ℕ

/-- A byte is written. The window matters to `'\b'` only, which does not leave it. -/
def Tape.write (columns : ℕ) (ch : UInt8) (d : Tape) : Tape :=
  if ch = '\r'.toUInt8 then { d with pos := d.pos - d.pos % columns }
  else if ch = '\x08'.toUInt8 then
    if columns * d.top < d.pos then
      { d with cell := Function.update d.cell (d.pos - 1) 0, pos := d.pos - 1 }
    else d
  else if ch = '\n'.toUInt8 then { d with pos := d.pos - d.pos % columns + columns }
  else { d with cell := Function.update d.cell d.pos ch, pos := d.pos + 1 }

/-- The window follows the position. -/
def Tape.follow (lines columns : ℕ) (d : Tape) : Tape :=
  if columns * (d.top + lines) ≤ d.pos then { d with top := d.top + 1 } else d

/-- The tape on which `chs` is written. -/
def tapeOf (lines columns : ℕ) (chs : List UInt8) : Tape :=
  chs.foldl (fun d ch => (d.write columns ch).follow lines columns) ⟨fun _ => 0, 0, 0⟩

/-- The screen is the window of the tape, and nothing is written below it. -/
structure Shows (t : Tty) (d : Tape) : Prop where
  pos : d.pos = t.columns * d.top + t.cursor
  window : ∀ i < t.size, t.buf i = ⟨0, d.cell (t.columns * d.top + i)⟩
  below : ∀ a, t.columns * d.top + t.size ≤ a → d.cell a = 0
  scrolls : t.scrolls = d.top

theorem ttyInit_shows (display lines columns : ℕ) :
    Shows (ttyInit display lines columns) ⟨fun _ => 0, 0, 0⟩ :=
  ⟨(Nat.mul_zero columns).symm, fun _ _ => rfl, fun _ _ => rfl, rfl⟩

section Steps

variable {t : Tty} {d : Tape} {ch : UInt8}

/-- While the cursor is on the screen, the window stays. -/
theorem Shows.follow_eq (h : Shows t d) (hsize : t.size = t.columns * t.lines)
    (hcur : t.cursor < t.size) : d.follow t.lines t.columns = d := by
  have hpos := h.pos
  unfold Tape.follow
  rw [if_neg]
  rw [Nat.mul_add]
  omega

/-- When the cursor comes to `end`, the screen and the window move together. -/
theorem Shows.scrolled (h : Shows t d) (hl : 1 ≤ t.lines)
    (hsize : t.size = t.columns * t.lines) (hcur : t.cursor = t.size) :
    Shows t.scrolled (d.follow t.lines t.columns) := by
  have hpos := h.pos
  have hle : t.columns ≤ t.size := by
    rw [hsize]
    exact Nat.le_mul_of_pos_right _ hl
  have hfollow : d.follow t.lines t.columns = { d with top := d.top + 1 } := by
    unfold Tape.follow
    rw [if_pos]
    rw [Nat.mul_add]
    omega
  have hrow : t.columns * (d.top + 1) = t.columns * d.top + t.columns := Nat.mul_succ _ _
  rw [hfollow]
  constructor
  · change d.pos = t.columns * (d.top + 1) + (t.size - t.columns)
    omega
  · intro i hi
    rw [Tty.scrolled_buf hle hi]
    change _ = Character.mk 0 (d.cell (t.columns * (d.top + 1) + i))
    split
    · rename_i hin
      rw [h.window _ hin, hrow, Nat.add_assoc, Nat.add_comm i]
    · -- the last row of the window is new
      rw [h.below _ (by omega)]
      rfl
  · intro a ha
    change t.columns * (d.top + 1) + t.size ≤ a at ha
    exact h.below a (by omega)
  · exact congrArg (· + 1) h.scrolls

/-- A character stored at a cell of the screen, and at its place on the tape. -/
theorem Shows.store (h : Shows t d) {i p : ℕ} (hi : i < t.size) (c : UInt8) :
    Shows
      { t with buf := Function.update t.buf i { t.buf i with ch := c }, cursor := p }
      { d with
        cell := Function.update d.cell (t.columns * d.top + i) c
        pos := t.columns * d.top + p } := by
  constructor
  · rfl
  · intro j hj
    simp only
    by_cases hji : j = i
    · rw [hji, Function.update_self, Function.update_self, h.window i hi]
    · rw [Function.update_of_ne hji, Function.update_of_ne (by omega), h.window j hj]
  · intro a ha
    simp only at ha ⊢
    rw [Function.update_of_ne (by omega), h.below a ha]
  · exact h.scrolls

/-- The cursor moved. -/
theorem Shows.move (h : Shows t d) (p : ℕ) :
    Shows { t with cursor := p } { d with pos := t.columns * d.top + p } :=
  ⟨rfl, h.window, h.below, h.scrolls⟩

/-- Marks do not show on the tape. -/
theorem Shows.marks (h : Shows t d) (dirty : ℕ → UInt8) : Shows { t with dirty := dirty } d :=
  ⟨h.pos, h.window, h.below, h.scrolls⟩

/-- The start of the row is the same on the screen and on the tape. -/
theorem Shows.row_start (h : Shows t d) :
    d.pos - d.pos % t.columns = t.columns * d.top + (t.cursor - t.cursor % t.columns) := by
  have hmod := Nat.mod_le t.cursor t.columns
  rw [h.pos, Nat.mul_add_mod]
  omega

theorem Shows.write_cr (h : Shows t d) : d.write t.columns '\r'.toUInt8 =
    { d with pos := t.columns * d.top + (t.cursor - t.cursor % t.columns) } := by
  unfold Tape.write
  rw [if_pos rfl, h.row_start]

theorem Shows.write_lf (h : Shows t d) : d.write t.columns '\n'.toUInt8 =
    { d with pos := t.columns * d.top + (t.cursor - t.cursor % t.columns + t.columns) } := by
  unfold Tape.write
  rw [if_neg (by decide), if_neg (by decide), if_pos rfl, h.row_start, Nat.add_assoc]

theorem Shows.write_backsp (h : Shows t d) (hpos : 0 < t.cursor) :
    d.write t.columns '\x08'.toUInt8 = { d with
      cell := Function.update d.cell (t.columns * d.top + (t.cursor - 1)) 0
      pos := t.columns * d.top + (t.cursor - 1) } := by
  have hp := h.pos
  unfold Tape.write
  rw [if_neg (by decide), if_pos rfl, if_pos (by omega),
    show d.pos - 1 = t.columns * d.top + (t.cursor - 1) by omega]

/-- Neither the screen nor the tape goes back from the first cell of the window. -/
theorem Shows.write_backsp_start (h : Shows t d) (hpos : ¬ 0 < t.cursor) :
    d.write t.columns '\x08'.toUInt8 = d := by
  have hp := h.pos
  unfold Tape.write
  rw [if_neg (by decide), if_pos rfl, if_neg (by omega)]

theorem Shows.write_char (h : Shows t d) (hcr : ch ≠ '\r'.toUInt8) (hbs : ch ≠ '\x08'.toUInt8)
    (hlf : ch ≠ '\n'.toUInt8) : d.write t.columns ch = { d with
      cell := Function.update d.cell (t.columns * d.top + t.cursor) ch
      pos := t.columns * d.top + (t.cursor + 1) } := by
  unfold Tape.write
  rw [if_neg hcr, if_neg hbs, if_neg hlf, h.pos, Nat.add_assoc]

/-- The tape takes the byte as the screen does. -/
theorem Shows.putc {t' : Tty} (h : Shows t d) (hw : t.Wf) (hput : PutcTo t ch t') :
    Shows t' ((d.write t.columns ch).follow t.lines t.columns) := by
  have hlt := hw.cursor_lt
  have hcur := hput.cursor_lt hw
  cases hput with
  | cr =>
      have hmove := (h.move (t.cursor - t.cursor % t.columns)).marks
        (fill (t.cursor - t.cursor % t.columns) t.columns 1 t.dirty)
      rw [h.write_cr, hmove.follow_eq hw.size_eq hcur]
      exact hmove
  | backsp =>
      by_cases hpos : 0 < t.cursor
      · have hstore := (h.store (p := t.cursor - 1) (show t.cursor - 1 < t.size by omega) 0).marks
          (fill (t.cursor - 1) 2 1 t.dirty)
        rw [h.write_backsp hpos, hstore.follow_eq hw.size_eq hcur]
        simp only [if_pos hpos]
        exact hstore
      · rw [h.write_backsp_start hpos, h.follow_eq hw.size_eq hlt]
        simp only [if_neg hpos, show t.cursor - 1 = t.cursor by omega]
        exact h.marks _
  | lf hrow =>
      have hmove := (h.move (t.cursor - t.cursor % t.columns + t.columns)).marks
        (fill (t.cursor - t.cursor % t.columns) (t.columns + t.columns) 1 t.dirty)
      rw [h.write_lf, hmove.follow_eq hw.size_eq hcur]
      exact hmove
  | lfLast hrow =>
      rw [h.write_lf, hrow]
      exact (h.move t.size).scrolled hw.lines_pos hw.size_eq rfl
  | char hcr hbs hlf hcell =>
      have hstore := (h.store (p := t.cursor + 1) hlt ch).marks (fill t.cursor 2 1 t.dirty)
      rw [h.write_char hcr hbs hlf, hstore.follow_eq hw.size_eq hcur]
      exact hstore
  | charLast hcr hbs hlf hcell =>
      rw [h.write_char hcr hbs hlf, hcell]
      exact (h.store hlt ch).scrolled hw.lines_pos hw.size_eq rfl

end Steps

/-! ## Whole texts -/

/-- What holds between a screen and the tape after `chs`. -/
structure ShowsTape (lines columns : ℕ) (chs : List UInt8) (t : Tty) : Prop where
  lines_eq : t.lines = lines
  columns_eq : t.columns = columns
  size_eq : t.size = columns * lines
  cursor_lt : t.cursor < t.size
  shows_tape : Shows t (tapeOf lines columns chs)

/-- Whatever is written on a blank screen, no store goes astray, the cursor stays on the screen,
and the screen is the window of the tape, as many rows down as there were scrolls. -/
theorem ttyPutcs_showsTape (display : ℕ) {lines columns : ℕ} (hl : 1 ≤ lines) (hc : 2 ≤ columns)
    (chs : List UInt8) :
    ∃ t, ttyPutcs chs (ttyInit display lines columns) = some t ∧
      ShowsTape lines columns chs t := by
  -- on the text, by its last byte
  induction chs using List.reverseRecOn with
  | nil =>
      have hw := ttyInit_wf display hl (Nat.le_of_succ_le hc)
      exact ⟨_, rfl, rfl, rfl, rfl, hw.cursor_lt, ttyInit_shows display lines columns⟩
  | append_singleton chs ch ih =>
      rcases ih with ⟨t, ht, hlines, hcolumns, hsize, hcur, hshows⟩
      have hw : t.Wf := by
        refine ⟨?_, ?_, ?_, hcur⟩
        · rwa [hlines]
        · rw [hcolumns]
          omega
        · rw [hsize, hcolumns, hlines]
      have htwo := hw.columns_le
      rcases ttyPutc_cases hw ch with ⟨t', hput, hcase⟩ | ⟨-, hone⟩
      swap
      · omega
      rcases hcase.same with ⟨-, hl', hc', hs'⟩
      refine ⟨t', ?_, hl'.trans hlines, hc'.trans hcolumns, hs'.trans hsize, ?_, ?_⟩
      · unfold ttyPutcs at ht ⊢
        rw [List.foldlM_append, ht]
        simpa using hput
      · rw [hs']
        exact hcase.cursor_lt hw
      · have hnext := hshows.putc hw hcase
        rw [hlines, hcolumns] at hnext
        unfold tapeOf at hnext ⊢
        rwa [List.foldl_append, List.foldl_cons, List.foldl_nil]

/-- The bytes `a`, `b`, Backspace, `c`, `d` on a screen of one row. -/
theorem ttyPutcs_showsTape_row : ∃ t, ttyPutcs [97, 98, 8, 99, 100] (ttyInit 0 1 2) = some t ∧
    ShowsTape 1 2 [97, 98, 8, 99, 100] t ∧ t.scrolls = 2 := by
  obtain ⟨t, ht, hshows⟩ := ttyPutcs_showsTape 0 (show 1 ≤ 1 by decide) (show 2 ≤ 2 by decide)
    [97, 98, 8, 99, 100]
  refine ⟨t, ht, hshows, ?_⟩
  rw [hshows.shows_tape.scrolls]
  rfl

end OsLab
