import OsLab.Lib.Run
import OsLab.Dev.TtyRender

/-! # Switching terminals (`dev_tty_task` of `dev_tty.c`)

To switch to another terminal the daemon marks all its cells, makes its display
current and calls `tty_write` with no bytes, so that all is drawn. Meanwhile any
number of tasks (`ω`) write on both terminals: their `tty_write` is a step under
`tty->lock` for the characters, and another one for `tty_render`.

`tty_render` clears the marks of a terminal that is not shown, too. If a task renders
the new terminal after the daemon marked it and before its display is current,
the frame buffer discards what is drawn, the marks are gone, and the old
terminal stays on the screen.

While a switch is handled `show_cursor` does not change.
-/

namespace OsLab

open Trace Copy

inductive TtyDev
  | tty1
  | tty2
deriving DecidableEq

/-- `ttydev->id - 1`. -/
def TtyDev.display : TtyDev → ℕ
  | .tty1 => 0
  | .tty2 => 1

/-- Where `dev_tty_task` is. -/
inductive DaemonPc
  /-- before the first `tty_mark_all` -/
  | start
  /-- in its loop, with no switch to do -/
  | idle
  /-- the new terminal is marked, its display is not yet current -/
  | marked
  /-- the display is changed -/
  | switched
  /-- before `tty_render` -/
  | render
deriving DecidableEq

variable {ω : Type*}

structure SwitchState (ω : Type*) where
  tty : TtyDev → Tty
  fb : Fb
  /-- the terminal of `dev_tty_task` -/
  ttydev : TtyDev
  daemon : DaemonPc
  /-- the tasks in `tty_write` before `tty_render`, with the terminal they write on -/
  writer : ω → Option TtyDev

inductive SwitchEvent (ω : Type*)
  | markAll (next : TtyDev)
  | setDisplay
  | daemonPutc
  | daemonRender
  | putcs (w : ω) (k : TtyDev) (chs : List UInt8)
  | render (w : ω)

def SwitchState.setTty (k : TtyDev) (t : Tty) (s : SwitchState ω) : SwitchState ω :=
  { s with tty := Function.update s.tty k t }

/-- `tty_render` of terminal `k`. -/
def SwitchState.renderTty (showCursor : Bool) (k : TtyDev) (s : SwitchState ω) : SwitchState ω :=
  { s with
    tty := Function.update s.tty k (ttyRender showCursor (s.tty k) s.fb).1
    fb := (ttyRender showCursor (s.tty k) s.fb).2 }

section System

variable [DecidableEq ω] (showCursor : Bool) (lines columns : ℕ)

inductive SwitchStep : SwitchState ω → SwitchEvent ω → SwitchState ω → Prop
  | first {s : SwitchState ω} {t : Tty} : s.daemon = .start → ttyMarkAll (s.tty s.ttydev) = some t →
      SwitchStep s (.markAll s.ttydev) { s.setTty s.ttydev t with daemon := .render }
  | markAll {s : SwitchState ω} {next : TtyDev} {t : Tty} : s.daemon = .idle → next ≠ s.ttydev →
      ttyMarkAll (s.tty next) = some t →
      SwitchStep s (.markAll next) { s.setTty next t with ttydev := next, daemon := .marked }
  | setDisplay {s : SwitchState ω} : s.daemon = .marked →
      SwitchStep s .setDisplay
        { s with fb := fbWrite (.info (s.tty s.ttydev).display) s.fb, daemon := .switched }
  | daemonPutc {s : SwitchState ω} {t : Tty} : s.daemon = .switched →
      ttyPutcs [] (s.tty s.ttydev) = some t →
      SwitchStep s .daemonPutc { s.setTty s.ttydev t with daemon := .render }
  | daemonRender {s : SwitchState ω} : s.daemon = .render →
      SwitchStep s .daemonRender { s.renderTty showCursor s.ttydev with daemon := .idle }
  | putcs {s : SwitchState ω} {w : ω} {k : TtyDev} {chs : List UInt8} {t : Tty} :
      s.writer w = none → ttyPutcs chs (s.tty k) = some t →
      SwitchStep s (.putcs w k chs)
        { s.setTty k t with writer := Function.update s.writer w (some k) }
  | render {s : SwitchState ω} {w : ω} {k : TtyDev} : s.writer w = some k →
      SwitchStep s (.render w)
        { s.renderTty showCursor k with writer := Function.update s.writer w none }

/-- The terminals as `tty_init` leaves them, on a frame buffer with any picture. -/
def SwitchStart (s : SwitchState ω) : Prop :=
  (∀ k, s.tty k = ttyInit k.display lines columns) ∧ s.fb.current = 0 ∧ s.ttydev = .tty1 ∧
    s.daemon = .start ∧ ∀ w, s.writer w = none

def SwitchRun : List (SwitchState ω × SwitchEvent ω) → SwitchState ω → Prop :=
  Run (SwitchStart lines columns) (SwitchStep showCursor)

/-- When the daemon is through and nobody is in `tty_write`, the terminal whose display is current
is on the screen. -/
def ShowsTerminal (s : SwitchState ω) : Prop :=
  s.daemon = .idle → (∀ w, s.writer w = none) → ∀ k, (s.tty k).display = s.fb.current →
    ∀ y < lines, ∀ x < columns, Drawn showCursor (s.tty k) s.fb x y

/-- The step does not render a terminal between `tty_mark_all` and the change of the display. -/
def NoHiddenRender (s : SwitchState ω) (e : SwitchEvent ω) : Prop :=
  ∀ w, e = .render w → s.daemon = .marked → s.writer w ≠ some s.ttydev

end System

/-! ## The invariant -/

structure SwitchInv (showCursor : Bool) (lines columns : ℕ) (s : SwitchState ω) : Prop where
  wf : ∀ k, (s.tty k).Wf
  same : ∀ k, SameScreen (ttyInit k.display lines columns) (s.tty k)
  current : s.daemon ≠ .marked → s.fb.current = s.ttydev.display
  /-- before the display is changed, everything is marked -/
  marked : s.daemon = .marked → ∀ i < (s.tty s.ttydev).size, (s.tty s.ttydev).dirty i ≠ 0
  drawn : s.daemon ≠ .start → s.daemon ≠ .marked → ∀ y < lines, ∀ x < columns,
    (s.tty s.ttydev).dirty (columns * y + x) ≠ 0 ∨
      Drawn showCursor (s.tty s.ttydev) s.fb x y
  /-- where there are marks, somebody is going to render -/
  pending : ∀ k, ∀ i < (s.tty k).size, (s.tty k).dirty i ≠ 0 →
    (∃ w, s.writer w = some k) ∨ (k = s.ttydev ∧ s.daemon ≠ .start ∧ s.daemon ≠ .idle)

section Inv

variable {showCursor : Bool} {lines columns : ℕ} {s : SwitchState ω}

theorem SwitchStart.inv (h : SwitchStart lines columns s) (hl : 1 ≤ lines) (hc : 1 ≤ columns) :
    SwitchInv showCursor lines columns s := by
  rcases h with ⟨htty, hcur, hdev, hstart, hw⟩
  constructor
  · intro k
    rw [htty k]
    exact ttyInit_wf _ hl hc
  · intro k
    rw [htty k]
    exact ⟨rfl, rfl, rfl, rfl⟩
  · intro _
    rw [hcur, hdev]
    rfl
  · intro hm
    rw [hstart] at hm
    cases hm
  · intro hs
    exact absurd hstart hs
  · intro k i _ hd
    rw [htty k] at hd
    exact absurd rfl hd

theorem TtyDev.display_inj {j k : TtyDev} (h : j.display = k.display) : j = k := by
  cases j <;> cases k <;> simp_all [TtyDev.display]

theorem SwitchInv.display (h : SwitchInv showCursor lines columns s) (k : TtyDev) :
    (s.tty k).display = k.display :=
  (h.same k).display

theorem SwitchInv.size (h : SwitchInv showCursor lines columns s) (k : TtyDev) :
    (s.tty k).size = columns * lines :=
  (h.same k).size

theorem cell_lt {x y : ℕ} (hy : y < lines) (hx : x < columns) :
    columns * y + x < columns * lines := by
  have hrow : columns * (y + 1) ≤ columns * lines := Nat.mul_le_mul_left columns hy
  rw [Nat.mul_succ] at hrow
  omega

/-- When nobody renders, all marks are cleared, so everything is drawn. -/
theorem SwitchInv.showsTerminal (h : SwitchInv showCursor lines columns s) :
    ShowsTerminal showCursor lines columns s := by
  intro hidle hw k hk y hy x hx
  have hcur := h.current (by rw [hidle]; decide)
  obtain rfl : k = s.ttydev := by
    apply TtyDev.display_inj
    rw [← h.display k, hk, hcur]
  -- what is marked is going to be rendered, and nobody renders
  rcases h.drawn (by rw [hidle]; decide) (by rw [hidle]; decide) y hy x hx with hdirty | hdrawn
  · exfalso
    rcases h.pending _ _ (by rw [h.size]; exact cell_lt hy hx) hdirty with ⟨w, hw'⟩ | ⟨-, -, hne⟩
    · rw [hw w] at hw'
      cases hw'
    · exact hne hidle
  · exact hdrawn

/-! ## Steps -/

theorem SwitchState.setTty_self (k : TtyDev) (t : Tty) (s : SwitchState ω) :
    (s.setTty k t).tty k = t :=
  Function.update_self ..

theorem SwitchState.setTty_of_ne {j k : TtyDev} (hne : j ≠ k) (t : Tty) (s : SwitchState ω) :
    (s.setTty k t).tty j = s.tty j :=
  Function.update_of_ne hne ..

/-- A terminal that changes is as large as before. -/
theorem SwitchInv.setTty_wf (h : SwitchInv showCursor lines columns s) {k : TtyDev} {t : Tty}
    (hw : t.Wf) (hsame : SameScreen (s.tty k) t) (j : TtyDev) :
    ((s.setTty k t).tty j).Wf ∧
      SameScreen (ttyInit j.display lines columns) ((s.setTty k t).tty j) := by
  by_cases hj : j = k
  · subst hj
    rw [s.setTty_self]
    exact ⟨hw, (h.same j).trans hsame⟩
  · rw [s.setTty_of_ne hj]
    exact ⟨h.wf j, h.same j⟩

/-- A terminal is written on while somebody is going to render it. -/
theorem SwitchInv.write (h : SwitchInv showCursor lines columns s) {k : TtyDev} {t : Tty}
    (hw : t.Wf) (hsame : SameScreen (s.tty k) t) (hkeep : KeepsMarks showCursor (s.tty k) t)
    (hpend : (∃ w, s.writer w = some k) ∨
      (k = s.ttydev ∧ s.daemon ≠ .start ∧ s.daemon ≠ .idle)) :
    SwitchInv showCursor lines columns (s.setTty k t) := by
  refine ⟨fun j => (h.setTty_wf hw hsame j).1, fun j => (h.setTty_wf hw hsame j).2, h.current,
    ?_, ?_, ?_⟩
  · intro hm i hi
    change i < ((s.setTty k t).tty s.ttydev).size at hi
    change ((s.setTty k t).tty s.ttydev).dirty i ≠ 0
    by_cases hk : s.ttydev = k
    · subst hk
      rw [s.setTty_self] at hi ⊢
      rw [hsame.size] at hi
      rcases hkeep i hi with hdirty | ⟨hclean, -⟩
      · exact hdirty
      · exact absurd hclean (h.marked hm i hi)
    · rw [s.setTty_of_ne hk] at hi ⊢
      exact h.marked hm i hi
  · intro hs hm y hy x hx
    change ((s.setTty k t).tty s.ttydev).dirty (columns * y + x) ≠ 0 ∨
      Drawn showCursor ((s.setTty k t).tty s.ttydev) s.fb x y
    have hold := h.drawn hs hm y hy x hx
    by_cases hk : s.ttydev = k
    · subst hk
      rw [s.setTty_self]
      -- what is written newly is marked
      rcases hkeep (columns * y + x) (by rw [h.size]; exact cell_lt hy hx) with
        hdirty | ⟨hclean, hglyph⟩
      · exact Or.inl hdirty
      · right
        have hcol : (s.tty s.ttydev).columns = columns := (h.same _).columns
        have hdrawn := hold.resolve_left fun hd => hd hclean
        unfold Drawn at hdrawn ⊢
        rwa [hsame.columns, hcol, hglyph, ← hcol]
    · rw [s.setTty_of_ne hk]
      exact hold
  · intro j i hi hd
    by_cases hj : j = k
    · subst hj
      exact hpend
    · rw [s.setTty_of_ne hj] at hi hd
      exact h.pending j i hi hd

/-- The cells of `k` carry no marks. -/
def Clean (s : SwitchState ω) (k : TtyDev) : Prop :=
  ∀ i < (s.tty k).size, (s.tty k).dirty i = 0

/-- A task that was in `tty_write` on a clean terminal, or in none, goes somewhere else. -/
theorem SwitchInv.setWriter [DecidableEq ω] (h : SwitchInv showCursor lines columns s) {w : ω}
    (hw : ∀ k, s.writer w = some k → Clean s k) (v : Option TtyDev) :
    SwitchInv showCursor lines columns { s with writer := Function.update s.writer w v } := by
  refine ⟨h.wf, h.same, h.current, h.marked, h.drawn, ?_⟩
  intro j i hi hd
  rcases h.pending j i hi hd with ⟨w', hw'⟩ | hdaemon
  · left
    refine ⟨w', ?_⟩
    have hne : w' ≠ w := by
      rintro rfl
      exact hd (hw j hw' i hi)
    exact (Function.update_of_ne hne _ _).trans hw'
  · exact Or.inr hdaemon

/-- A task enters `tty_write`. -/
theorem SwitchInv.enter [DecidableEq ω] (h : SwitchInv showCursor lines columns s) {w : ω}
    (hw : s.writer w = none) (k : TtyDev) : SwitchInv showCursor lines columns
      { s with writer := Function.update s.writer w (some k) } := by
  apply h.setWriter
  intro j hj
  rw [hw] at hj
  cases hj

/-- A task leaves `tty_write`. -/
theorem SwitchInv.leave [DecidableEq ω] (h : SwitchInv showCursor lines columns s) {w : ω}
    {k : TtyDev} (hw : s.writer w = some k) (hclean : Clean s k) :
    SwitchInv showCursor lines columns { s with writer := Function.update s.writer w none } := by
  apply h.setWriter
  intro j hj
  obtain rfl := Option.some.inj (hw.symm.trans hj)
  exact hclean

/-- The daemon has written no bytes. -/
theorem SwitchInv.written (h : SwitchInv showCursor lines columns s) (hd : s.daemon = .switched) :
    SwitchInv showCursor lines columns { s with daemon := .render } := by
  refine ⟨h.wf, h.same, fun _ => h.current (by rw [hd]; decide), nofun,
    fun _ _ => h.drawn (by rw [hd]; decide) (by rw [hd]; decide), ?_⟩
  intro j i hi hdirty
  rcases h.pending j i hi hdirty with hw | ⟨hj, -⟩
  · exact Or.inl hw
  · exact Or.inr ⟨hj, nofun, nofun⟩

/-- The daemon is through with a switch. -/
theorem SwitchInv.finish (h : SwitchInv showCursor lines columns s) (hd : s.daemon = .render)
    (hclean : Clean s s.ttydev) :
    SwitchInv showCursor lines columns { s with daemon := .idle } := by
  refine ⟨h.wf, h.same, fun _ => h.current (by rw [hd]; decide), nofun,
    fun _ _ => h.drawn (by rw [hd]; decide) (by rw [hd]; decide), ?_⟩
  intro j i hi hdirty
  rcases h.pending j i hi hdirty with hw | ⟨rfl, -⟩
  · exact Or.inl hw
  · exact absurd (hclean i hi) hdirty

theorem clean_renderTty (k : TtyDev) : Clean (s.renderTty showCursor k) k := by
  intro i hi
  unfold SwitchState.renderTty ttyRender at hi ⊢
  simp only [Function.update_self] at hi ⊢
  unfold fill
  rw [if_pos (by omega)]

/-- A terminal is rendered, but not the new one while its display is not current. -/
theorem SwitchInv.render (h : SwitchInv showCursor lines columns s) {k : TtyDev}
    (hk : s.daemon = .marked → k ≠ s.ttydev) :
    SwitchInv showCursor lines columns (s.renderTty showCursor k) := by
  have hclean : Clean (s.renderTty showCursor k) k := clean_renderTty k
  have hne : ∀ {j}, j ≠ k → (s.renderTty showCursor k).tty j = s.tty j := fun hj =>
    Function.update_of_ne hj _ _
  have hself : (s.renderTty showCursor k).tty k = (ttyRender showCursor (s.tty k) s.fb).1 :=
    Function.update_self ..
  have hwf : ((ttyRender showCursor (s.tty k) s.fb).1).Wf := by
    rcases h.wf k with ⟨hl, hc, hs, hcur⟩
    exact ⟨hl, hc, hs, hcur⟩
  have hset := h.setTty_wf hwf ⟨rfl, rfl, rfl, rfl⟩
  refine ⟨fun j => (hset j).1, fun j => (hset j).2, ?_, ?_, ?_, ?_⟩
  · intro hm
    exact ttyRender_current.trans (h.current hm)
  · intro hm i hi
    change i < ((s.renderTty showCursor k).tty s.ttydev).size at hi
    change ((s.renderTty showCursor k).tty s.ttydev).dirty i ≠ 0
    rw [hne (hk hm).symm] at hi ⊢
    exact h.marked hm i hi
  · intro hs hm y hy x hx
    change ((s.renderTty showCursor k).tty s.ttydev).dirty (columns * y + x) ≠ 0 ∨
      Drawn showCursor ((s.renderTty showCursor k).tty s.ttydev)
        (ttyRender showCursor (s.tty k) s.fb).2 x y
    have hcur := h.current hm
    have hold := h.drawn hs hm y hy x hx
    by_cases hj : s.ttydev = k
    · -- the terminal on the screen: what was marked is drawn
      subst hj
      right
      have hsame := h.same s.ttydev
      have hcol : (s.tty s.ttydev).columns = columns := hsame.columns
      have hlin : (s.tty s.ttydev).lines = lines := hsame.lines
      rw [hself]
      rw [← hcol] at hold hx
      exact ttyRender_drawn ((h.display _).trans hcur.symm) hx (by rwa [hlin]) hold
    · -- the other one: the frame buffer discards it
      rw [hne hj, ttyRender_hidden]
      · exact hold
      · rw [h.display, hcur]
        exact fun hd => hj (TtyDev.display_inj hd).symm
  · intro j i hi hd
    by_cases hj : j = k
    · subst hj
      exact absurd (hclean i hi) hd
    · rw [hne hj] at hi hd
      exact h.pending j i hi hd

/-- The daemon marks the terminal it switches to. -/
theorem SwitchInv.markAll (h : SwitchInv showCursor lines columns s) {next : TtyDev} {t : Tty}
    (hidle : s.daemon = .idle) (ht : ttyMarkAll (s.tty next) = some t) :
    SwitchInv showCursor lines columns
      { s.setTty next t with ttydev := next, daemon := .marked } := by
  rcases ttyMarkAll_marks (h.wf next) ht with ⟨hw, hsame, hmarks⟩
  have hset := h.setTty_wf hw hsame
  refine ⟨fun j => (hset j).1, fun j => (hset j).2, fun hm => absurd rfl hm, ?_,
    fun _ hm => absurd rfl hm, ?_⟩
  · intro _ i hi
    change i < ((s.setTty next t).tty next).size at hi
    change ((s.setTty next t).tty next).dirty i ≠ 0
    rw [s.setTty_self] at hi ⊢
    exact hmarks i hi
  · intro j i hi hd
    by_cases hj : j = next
    · exact Or.inr ⟨hj, nofun, nofun⟩
    · change i < ((s.setTty next t).tty j).size at hi
      change ((s.setTty next t).tty j).dirty i ≠ 0 at hd
      rw [s.setTty_of_ne hj] at hi hd
      rcases h.pending j i hi hd with hw | ⟨-, -, hne⟩
      · exact Or.inl hw
      · exact absurd hidle hne

/-- The daemon marks the first terminal. -/
theorem SwitchInv.first (h : SwitchInv showCursor lines columns s) {t : Tty}
    (hstart : s.daemon = .start) (ht : ttyMarkAll (s.tty s.ttydev) = some t) :
    SwitchInv showCursor lines columns { s.setTty s.ttydev t with daemon := .render } := by
  rcases ttyMarkAll_marks (h.wf s.ttydev) ht with ⟨hw, hsame, hmarks⟩
  have hset := h.setTty_wf hw hsame
  refine ⟨fun j => (hset j).1, fun j => (hset j).2, ?_, nofun, ?_, ?_⟩
  · intro _
    exact h.current (by rw [hstart]; decide)
  · intro _ _ y hy x hx
    left
    change ((s.setTty s.ttydev t).tty s.ttydev).dirty (columns * y + x) ≠ 0
    rw [s.setTty_self]
    apply hmarks
    rw [hsame.size, h.size]
    exact cell_lt hy hx
  · intro j i hi hd
    by_cases hj : j = s.ttydev
    · exact Or.inr ⟨hj, nofun, nofun⟩
    · change i < ((s.setTty s.ttydev t).tty j).size at hi
      change ((s.setTty s.ttydev t).tty j).dirty i ≠ 0 at hd
      rw [s.setTty_of_ne hj] at hi hd
      rcases h.pending j i hi hd with hw | ⟨rfl, -⟩
      · exact Or.inl hw
      · exact absurd rfl hj

/-- The display is changed: all of the new terminal is still marked. -/
theorem SwitchInv.setDisplay (h : SwitchInv showCursor lines columns s)
    (hm : s.daemon = .marked) : SwitchInv showCursor lines columns
      { s with fb := fbWrite (.info (s.tty s.ttydev).display) s.fb, daemon := .switched } := by
  refine ⟨h.wf, h.same, ?_, nofun, ?_, ?_⟩
  · intro _
    change (fbWrite _ s.fb).current = _
    rw [← h.display]
    unfold fbWrite
    simp only
    split
    · rfl
    · rename_i heq
      exact not_not.1 heq
  · intro _ _ y hy x hx
    left
    apply h.marked hm
    rw [h.size]
    exact cell_lt hy hx
  · intro j i hi hd
    rcases h.pending j i hi hd with hw | ⟨rfl, -⟩
    · exact Or.inl hw
    · exact Or.inr ⟨rfl, nofun, nofun⟩

/-- Every step that is no hidden render keeps the invariant. -/
theorem SwitchStep.inv [DecidableEq ω] {e : SwitchEvent ω} {s' : SwitchState ω}
    (hst : SwitchStep showCursor s e s') (h : SwitchInv showCursor lines columns s)
    (hC : NoHiddenRender s e) : SwitchInv showCursor lines columns s' := by
  cases hst with
  | first hstart ht => exact h.first hstart ht
  | markAll hidle _ ht => exact h.markAll hidle ht
  | setDisplay hm => exact h.setDisplay hm
  | daemonPutc hd ht =>
      rename_i t
      rcases ttyPutcs_keepsMarks (h.wf _) ht with ⟨hwf, hsame, hkeep⟩
      have hpend : s.daemon ≠ .start ∧ s.daemon ≠ .idle := by
        rw [hd]
        exact ⟨nofun, nofun⟩
      exact (h.write hwf hsame hkeep (Or.inr ⟨rfl, hpend⟩)).written hd
  | daemonRender hd =>
      have hrender := h.render (k := s.ttydev) (by rw [hd]; nofun)
      exact hrender.finish hd (clean_renderTty s.ttydev)
  | putcs hw ht =>
      rename_i w k chs t
      rcases ttyPutcs_keepsMarks (h.wf k) ht with ⟨hwf, hsame, hkeep⟩
      apply (h.enter hw k).write hwf hsame hkeep
      exact Or.inl ⟨w, Function.update_self ..⟩
  | render hw =>
      rename_i w k
      have hrender := h.render (k := k) (fun hm he => hC w rfl hm (by rw [hw, he]))
      exact hrender.leave hw (clean_renderTty k)

end Inv

/-! ## Runs -/

variable [DecidableEq ω] {showCursor : Bool} {lines columns : ℕ}
  {h : List (SwitchState ω × SwitchEvent ω)} {s : SwitchState ω}

/-- When no terminal is rendered between its marking and the change of the display, every switch
shows the terminal. -/
theorem showsTerminal_of_noHiddenRender (hr : SwitchRun showCursor lines columns h s)
    (hC : AllSteps NoHiddenRender h) : AllStates (ShowsTerminal showCursor lines columns) h s := by
  by_cases hcell : 1 ≤ lines ∧ 1 ≤ columns
  · have hinv := hr.invariant_of_allSteps (I := SwitchInv showCursor lines columns)
      (fun s hs => hs.inv hcell.1 hcell.2) (fun s e t hI hc hst => hst.inv hI hc) hC
    exact ⟨fun p hp => (hinv.1 p hp).showsTerminal, hinv.2.showsTerminal⟩
  · -- a frame buffer without a cell
    have hnone : ∀ s : SwitchState ω, ShowsTerminal showCursor lines columns s := by
      intro s _ _ k _ y hy x hx
      omega
    exact ⟨fun p _ => hnone p.1, hnone s⟩

/-! ## A hidden render -/

/-- Two terminals of two cells, and an empty picture. -/
def switchStart : SwitchState Unit :=
  ⟨fun k => ttyInit k.display 1 2, ⟨0, fun _ => 0⟩, .tty1, .start, fun _ => none⟩

theorem switchStart_start : SwitchStart 1 2 switchStart :=
  ⟨fun _ => rfl, rfl, rfl, rfl, fun _ => rfl⟩

/-- A switch to `tty2`, while a task writes `b` there: the bytes before the terminal is marked, the
render after the display is changed. -/
theorem showsTerminal_switch : ∃ h s, SwitchRun (ω := Unit) true 1 2 h s ∧ s.ttydev = .tty2 ∧
    s.daemon = .idle ∧ s.writer () = none ∧ ((s.tty .tty2).buf 0).ch = 98 ∧
    AllStates (ShowsTerminal true 1 2) h s := by
  have hr : SwitchRun true 1 2 _ _ :=
    Run.snoc (Run.snoc (Run.snoc (Run.snoc (Run.snoc (Run.snoc (Run.snoc (Run.snoc
      (Run.start switchStart_start)
      (SwitchStep.first rfl ttyMarkAll_eq))
      (SwitchStep.daemonRender rfl))
      (show SwitchStep true _ (.putcs () .tty2 [98]) _ from .putcs rfl rfl))
      (show SwitchStep true _ (.markAll .tty2) _ from .markAll rfl nofun ttyMarkAll_eq))
      (SwitchStep.setDisplay rfl))
      (show SwitchStep true _ (.render ()) _ from .render rfl))
      (SwitchStep.daemonPutc rfl rfl))
      (SwitchStep.daemonRender rfl)
  refine ⟨_, _, hr, rfl, rfl, rfl, rfl, showsTerminal_of_noHiddenRender hr ?_⟩
  -- the task renders when the display is changed already
  repeat
    first
    | exact allSteps_nil
    | refine allSteps_cons.2 ⟨nofun, ?_⟩

/-- While the daemon switches to `tty2`, a task writes `b` there and renders before the display is
changed. At the end the cursor of `tty1` is where the `b` should be. -/
theorem not_showsTerminal : ¬ ∀ h s, SwitchRun (ω := Unit) true 1 2 h s →
    AllStates (ShowsTerminal true 1 2) h s := by
  intro hall
  have hr : SwitchRun true 1 2 _ _ :=
    Run.snoc (Run.snoc (Run.snoc (Run.snoc (Run.snoc (Run.snoc (Run.snoc (Run.snoc
      (Run.start switchStart_start)
      (SwitchStep.first rfl ttyMarkAll_eq))
      (SwitchStep.daemonRender rfl))
      (show SwitchStep true _ (.markAll .tty2) _ from .markAll rfl nofun ttyMarkAll_eq))
      (show SwitchStep true _ (.putcs () .tty2 [98]) _ from .putcs rfl rfl))
      (show SwitchStep true _ (.render ()) _ from .render rfl))
      (SwitchStep.setDisplay rfl))
      (SwitchStep.daemonPutc rfl rfl))
      (SwitchStep.daemonRender rfl)
  have hshows := (hall _ _ hr).2 rfl (fun _ => rfl) .tty2 rfl 0 (by decide) 0 (by decide)
  exact absurd hshows.1 (by decide)

end OsLab
