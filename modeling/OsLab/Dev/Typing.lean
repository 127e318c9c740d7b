import OsLab.Dev.Keyboard
import OsLab.Dev.TtyQueue
import OsLab.Dev.TtySwitch

/-! # From the keyboard to a line that is read

`dev_input_task` takes the bytes of the keyboard controller and pushes events,
`dev_tty_task` pops them and cooks the plain ones for the terminal it is on, and any
task reads lines from either terminal. The parts are those of `OsLab.Dev.Keyboard`,
`OsLab.Dev.Input` and `OsLab.Dev.TtyQueue`; here they run together, a step being a byte,
a critical section of the input queue, an event that is handled or a `tty_read`.

`typedAt` says what should come out: the characters that the keys stand for, given to the
terminal that the Alt keys before them chose. What is drawn is left out.
-/

namespace OsLab

open Trace

/-- `ev.data` as a `char`. -/
def InputEvent.char (ev : InputEvent) : UInt8 := UInt8.ofNat ev.data.toNat

/-- `!ev.ctrl && !ev.alt && ev.data`. -/
def InputEvent.Plain (ev : InputEvent) : Prop := ev.ctrl = 0 ∧ ev.alt = 0 ∧ ev.data ≠ 0

instance (ev : InputEvent) : Decidable ev.Plain := inferInstanceAs (Decidable (_ ∧ _))

/-- The terminal `dev_tty_task` is on after an event. -/
def nextTty (ttydev : TtyDev) (ev : InputEvent) : TtyDev :=
  if ev.alt ≠ 0 then
    let next := ttydev
    let next := if ev.data.toNat = '1'.toNat then .tty1 else next
    if ev.data.toNat = '2'.toNat then .tty2 else next
  else ttydev

/-! ## The system -/

variable {α : Type*} [DecidableEq α]

structure TypingState (α : Type*) where
  keyboard : Keyboard
  input : InputState α
  /-- the event `dev_tty_task` is handling -/
  ev : Option InputEvent
  ttydev : TtyDev
  tty : TtyDev → TtyInputState
  /-- ghost: the bytes of the controller so far -/
  codes : List UInt8
  /-- ghost: the events handled so far -/
  handled : List InputEvent

inductive TypingAct
  | code (code : UInt8)
  | idle
  | signal
  | wait
  | leave
  | pop (ev : InputEvent)
  | handle
  | cook
  | read (k : TtyDev) (count : ℕ) (got : List UInt8)

/-- The two daemons are the tasks `inputTask` and `ttyTask`. -/
inductive TypingStep (inputTask ttyTask : α) : TypingState α → TypingAct → TypingState α → Prop
  | quiet {s : TypingState α} {code : UInt8} {kb : Keyboard} :
      s.input.pc inputTask = .outside → inputCode code s.keyboard = (kb, none) →
      TypingStep inputTask ttyTask s (.code code)
        { s with keyboard := kb, codes := s.codes ++ [code] }
  | key {s : TypingState α} {code : UInt8} {kb : Keyboard} {ev : InputEvent}
      {input : InputState α} :
      inputCode code s.keyboard = (kb, some ev) →
      InputStep s.input (.push inputTask ev) input →
      TypingStep inputTask ttyTask s (.code code)
        { s with keyboard := kb, input := input, codes := s.codes ++ [code] }
  | idle {s : TypingState α} {input : InputState α} :
      isEmpty s.input.queue = true → InputStep s.input (.push inputTask idleEvent) input →
      TypingStep inputTask ttyTask s .idle { s with input := input }
  | signal {s : TypingState α} {input : InputState α} :
      InputStep s.input (.signal inputTask) input →
      TypingStep inputTask ttyTask s .signal { s with input := input }
  | wait {s : TypingState α} {input : InputState α} :
      s.ev = none → InputStep s.input (.wait ttyTask) input →
      TypingStep inputTask ttyTask s .wait { s with input := input }
  | leave {s : TypingState α} {input : InputState α} :
      InputStep s.input (.leave ttyTask) input →
      TypingStep inputTask ttyTask s .leave { s with input := input }
  | pop {s : TypingState α} {ev : InputEvent} {input : InputState α} :
      s.ev = none → InputStep s.input (.pop ttyTask ev) input →
      TypingStep inputTask ttyTask s (.pop ev) { s with input := input, ev := some ev }
  | handle {s : TypingState α} {ev : InputEvent} :
      s.ev = some ev → ¬ ev.Plain →
      TypingStep inputTask ttyTask s .handle
        { s with ev := none, ttydev := nextTty s.ttydev ev, handled := s.handled ++ [ev] }
  | cook {s : TypingState α} {ev : InputEvent} {ret : ℕ} {t : TtyInput} :
      s.ev = some ev → ev.Plain → ttyCook ev.char (s.tty s.ttydev).tty = some (ret, t) →
      TypingStep inputTask ttyTask s .cook
        { s with
          ev := none
          tty := Function.update s.tty s.ttydev
            ⟨t, (s.tty s.ttydev).typed ++ [ev.char], (s.tty s.ttydev).reads⟩
          handled := s.handled ++ [ev] }
  | read {s : TypingState α} {k : TtyDev} {count : ℕ} {got : List UInt8} {t : TtyInputState} :
      TtyInputStep (s.tty k) (.read count got) t →
      TypingStep inputTask ttyTask s (.read k count got)
        { s with tty := Function.update s.tty k t }

/-- The state `input_init` and `tty_init` leave; the flags of the keyboard are `kb`. The last byte
of each terminal's ring is taken to be 0, which `pmm->alloc` does not promise. -/
structure TypingStart (kb : Keyboard) (s : TypingState α) : Prop where
  keyboard : s.keyboard = kb
  input : ∃ events, s.input = inputInit events
  ev : s.ev = none
  ttydev : s.ttydev = .tty1
  tty : ∀ k, TtyInputStart (s.tty k)
  codes : s.codes = []
  handled : s.handled = []

def TypingRun (kb : Keyboard) (inputTask ttyTask : α) :
    List (TypingState α × TypingAct) → TypingState α → Prop :=
  Run (TypingStart kb) (TypingStep inputTask ttyTask)

/-! ## What should come out -/

/-- The characters for terminal `k` in the events, when the first event meets terminal `ttydev`. -/
def routed (k : TtyDev) : TtyDev → List InputEvent → List UInt8
  | _, [] => []
  | ttydev, ev :: evs =>
      (if ev.Plain ∧ ttydev = k then [ev.char] else []) ++ routed k (nextTty ttydev ev) evs

/-- What the bytes `codes` of the controller type at terminal `k`. -/
def typedAt (kb : Keyboard) (k : TtyDev) (codes : List UInt8) : List UInt8 :=
  routed k .tty1 (keyEvents kb (codes.map inputKeybrd))

section Routed

variable {k ttydev : TtyDev} {ev : InputEvent} {evs evs' : List InputEvent}

theorem routed_append : routed k ttydev (evs ++ evs') =
    routed k ttydev evs ++ routed k (evs.foldl nextTty ttydev) evs' := by
  induction evs generalizing ttydev with
  | nil => rfl
  | cons ev evs ih => rw [List.cons_append, routed, routed, ih, List.append_assoc, List.foldl_cons]

theorem routed_snoc : routed k ttydev (evs ++ [ev]) = routed k ttydev evs ++
    if ev.Plain ∧ evs.foldl nextTty ttydev = k then [ev.char] else [] := by
  rw [routed_append, routed, routed, List.append_nil]

theorem not_plain_idleEvent : ¬ idleEvent.Plain := by decide

theorem nextTty_idleEvent : nextTty ttydev idleEvent = ttydev := by cases ttydev <;> decide

/-- The idle events type nothing. -/
theorem routed_filter :
    routed k ttydev (evs.filter fun ev => ev ≠ idleEvent) = routed k ttydev evs := by
  induction evs generalizing ttydev with
  | nil => rfl
  | cons ev evs ih =>
      by_cases hev : ev = idleEvent
      · rw [List.filter_cons_of_neg (by simpa using hev), ih, routed, hev, nextTty_idleEvent,
          if_neg fun h => not_plain_idleEvent h.1, List.nil_append]
      · rw [List.filter_cons_of_pos (by simpa using hev), routed, routed, ih]

theorem routed_prefix (h : evs <+: evs') : routed k ttydev evs <+: routed k ttydev evs' := by
  rcases h with ⟨rest, rfl⟩
  rw [routed_append]
  exact List.prefix_append _ _

/-- A plain event leaves the terminal. -/
theorem nextTty_plain (h : ev.Plain) : nextTty ttydev ev = ttydev :=
  if_neg (not_not.2 h.2.1)

end Routed

/-- The lines stay when more is typed. -/
theorem typedText_lines_prefix {chs chs' : List UInt8} (h : chs <+: chs') :
    (typedText chs).lines <+: (typedText chs').lines := by
  rcases h with ⟨rest, rfl⟩
  induction rest using List.reverseRecOn with
  | nil => rw [List.append_nil]
  | append_singleton rest ch ih =>
      rw [← List.append_assoc, typedText_snoc]
      exact ih.trans (TypedText.lines_key _ _)

theorem inputCode_eq (code : UInt8) (kb : Keyboard) :
    inputCode code kb = inputKeydown (inputKeybrd code) kb := by
  unfold inputCode
  by_cases hk : (inputKeybrd code).keycode = .NONE
  · simp [hk, inputKeydown, keymap]
  · simp [hk]

/-! ## The invariant -/

structure TypingInv (kb : Keyboard) (s : TypingState α) : Prop where
  input : InputInv s.input
  keyboard : s.keyboard = keyboardAfter kb (s.codes.map inputKeybrd)
  pushed : (s.input.pushed.filter fun ev => ev ≠ idleEvent) =
    keyEvents kb (s.codes.map inputKeybrd)
  popped : s.handled ++ s.ev.toList = s.input.popped
  ttydev : s.ttydev = s.handled.foldl nextTty .tty1
  typed : ∀ k, (s.tty k).typed = routed k .tty1 s.handled
  tty : ∀ k, TtyInputInv (s.tty k) ∧ ReadsLines (s.tty k)

section Inv

variable {kb : Keyboard} {inputTask ttyTask : α} {s s' : TypingState α} {ev : InputEvent}
  {input : InputState α}

omit [DecidableEq α] in
theorem TypingStart.inv (h : TypingStart kb s) : TypingInv kb s := by
  rcases h with ⟨hkb, ⟨events, hin⟩, hev, hdev, htty, hcodes, hhandled⟩
  refine ⟨?_, ?_, ?_, ?_, ?_, fun k => ?_, fun k => ⟨(htty k).inv, ?_⟩⟩
  · rw [hin]
    exact inputInv_init events
  · rw [hkb, hcodes]
    rfl
  · rw [hin, hcodes]
    rfl
  · rw [hhandled, hev, hin]
    rfl
  · rw [hdev, hhandled]
    rfl
  · rw [(htty k).2.2.2.2.1, hhandled]
    rfl
  · intro i count got hi
    rw [(htty k).2.2.2.2.2] at hi
    simp at hi

omit [DecidableEq α] in
/-- What is pushed comes from a key, or is the idle event. -/
theorem TypingInv.char_ne_zero (h : TypingInv kb s) (hev : ev ∈ s.input.pushed)
    (hplain : ev.Plain) : ev.char ≠ 0 := by
  have hkey : ev ∈ keyEvents kb (s.codes.map inputKeybrd) := by
    rw [← h.pushed, List.mem_filter]
    refine ⟨hev, ?_⟩
    have hne : ev ≠ idleEvent := by
      rintro rfl
      exact not_plain_idleEvent hplain
    simpa using hne
  unfold keyEvents at hkey
  rcases List.mem_filterMap.1 hkey with ⟨i, -, hi⟩
  rcases Option.bind_eq_some_iff.1 hi with ⟨e, -, he⟩
  have hdata := keyEvent_data he
  intro hzero
  have htoNat := congrArg UInt8.toNat hzero
  rw [InputEvent.char, UInt8.toNat_ofNat', Nat.mod_eq_of_lt (by omega)] at htoNat
  exact absurd htoNat (Nat.ne_of_gt hdata.1)

omit [DecidableEq α] in
/-- A step of the input queue that neither pushes nor pops. -/
theorem TypingInv.setInput (h : TypingInv kb s) (hin : InputInv input)
    (hpushed : input.pushed = s.input.pushed) (hpopped : input.popped = s.input.popped) :
    TypingInv kb { s with input := input } := by
  refine ⟨hin, h.keyboard, ?_, ?_, h.ttydev, h.typed, h.tty⟩
  · rw [← h.pushed, ← hpushed]
  · rw [h.popped, ← hpopped]

omit [DecidableEq α] in
/-- The flags and the event of a byte. -/
theorem TypingInv.inputCode_eq (h : TypingInv kb s) (code : UInt8) :
    inputCode code s.keyboard = (keyboardAfter kb ((s.codes ++ [code]).map inputKeybrd),
      keyEvent (keyboardAfter kb (s.codes.map inputKeybrd)) (inputKeybrd code)) := by
  rw [OsLab.inputCode_eq, h.keyboard, inputKeydown_eq, List.map_append]
  rfl

omit [DecidableEq α] in
theorem TypingInv.quiet (h : TypingInv kb s) {code : UInt8} {kb' : Keyboard}
    (hcode : inputCode code s.keyboard = (kb', none)) :
    TypingInv kb { s with keyboard := kb', codes := s.codes ++ [code] } := by
  rcases Prod.mk.inj ((h.inputCode_eq code).symm.trans hcode) with ⟨rfl, hnone⟩
  refine ⟨h.input, rfl, ?_, h.popped, h.ttydev, h.typed, h.tty⟩
  change (s.input.pushed.filter _) = keyEvents kb ((s.codes ++ [code]).map inputKeybrd)
  rw [List.map_append, List.map_singleton, keyEvents_snoc, hnone, h.pushed]
  exact (List.append_nil _).symm

theorem TypingInv.key (h : TypingInv kb s) {code : UInt8} {kb' : Keyboard}
    (hcode : inputCode code s.keyboard = (kb', some ev))
    (hst : InputStep s.input (.push inputTask ev) input) :
    TypingInv kb { s with keyboard := kb', input := input, codes := s.codes ++ [code] } := by
  have hin := h.input.step hst
  rcases Prod.mk.inj ((h.inputCode_eq code).symm.trans hcode) with ⟨rfl, hev⟩
  have hne : ev ≠ idleEvent := by
    rintro rfl
    exact absurd (keyEvent_data hev).1 (by decide)
  cases hst with
  | push hpc hq =>
      refine ⟨hin, rfl, ?_, h.popped, h.ttydev, h.typed, h.tty⟩
      change ((s.input.pushed ++ [ev]).filter _) = keyEvents kb ((s.codes ++ [code]).map inputKeybrd)
      rw [List.map_append, List.map_singleton, keyEvents_snoc, hev, List.filter_append, h.pushed]
      simp [hne]

theorem TypingInv.idle (h : TypingInv kb s)
    (hst : InputStep s.input (.push inputTask idleEvent) input) :
    TypingInv kb { s with input := input } := by
  have hin := h.input.step hst
  cases hst with
  | push hpc hq =>
      refine ⟨hin, h.keyboard, ?_, h.popped, h.ttydev, h.typed, h.tty⟩
      change ((s.input.pushed ++ [idleEvent]).filter _) = _
      rw [List.filter_append, h.pushed]
      simp

theorem TypingInv.pop (h : TypingInv kb s) (hnone : s.ev = none)
    (hst : InputStep s.input (.pop ttyTask ev) input) :
    TypingInv kb { s with input := input, ev := some ev } := by
  have hin := h.input.step hst
  cases hst with
  | pop hat hq =>
      refine ⟨hin, h.keyboard, h.pushed, ?_, h.ttydev, h.typed, h.tty⟩
      have hpopped := h.popped
      rw [hnone] at hpopped
      change s.handled ++ [ev] = s.input.popped ++ [ev]
      rw [← hpopped]
      simp

omit [DecidableEq α] in
/-- The event in hand is one that was pushed. -/
theorem TypingInv.mem_pushed (h : TypingInv kb s) (hev : s.ev = some ev) :
    ev ∈ s.input.pushed := by
  have hpopped := h.popped
  rw [hev] at hpopped
  apply h.input.eventsInOrder.inOrder.subset
  rw [← hpopped]
  exact List.mem_append_right _ List.mem_cons_self

omit [DecidableEq α] in
/-- The events handled, one more of them. -/
theorem TypingInv.popped_snoc (h : TypingInv kb s) (hev : s.ev = some ev) :
    (s.handled ++ [ev]) ++ (none : Option InputEvent).toList = s.input.popped := by
  rw [← h.popped, hev]
  exact List.append_nil _

omit [DecidableEq α] in
theorem TypingInv.handle (h : TypingInv kb s) (hev : s.ev = some ev) (hplain : ¬ ev.Plain) :
    TypingInv kb { s with
      ev := none
      ttydev := nextTty s.ttydev ev
      handled := s.handled ++ [ev] } := by
  refine ⟨h.input, h.keyboard, h.pushed, h.popped_snoc hev, ?_, fun k => ?_, h.tty⟩
  · change nextTty s.ttydev ev = (s.handled ++ [ev]).foldl nextTty .tty1
    rw [List.foldl_append, ← h.ttydev]
    rfl
  · change (s.tty k).typed = routed k .tty1 (s.handled ++ [ev])
    rw [routed_snoc, if_neg fun hc => hplain hc.1, List.append_nil, h.typed]

omit [DecidableEq α] in
theorem TypingInv.cook (h : TypingInv kb s) (hev : s.ev = some ev) (hplain : ev.Plain)
    {ret : ℕ} {t : TtyInput} (hcook : ttyCook ev.char (s.tty s.ttydev).tty = some (ret, t)) :
    TypingInv kb { s with
      ev := none
      tty := Function.update s.tty s.ttydev
        ⟨t, (s.tty s.ttydev).typed ++ [ev.char], (s.tty s.ttydev).reads⟩
      handled := s.handled ++ [ev] } := by
  have hch := h.char_ne_zero (h.mem_pushed hev) hplain
  have hdev : (s.handled ++ [ev]).foldl nextTty .tty1 = s.ttydev := by
    rw [List.foldl_append, ← h.ttydev]
    exact nextTty_plain hplain
  refine ⟨h.input, h.keyboard, h.pushed, h.popped_snoc hev, hdev.symm, ?_, ?_⟩
  · refine (Function.forall_update_iff s.tty (p := fun k t =>
      t.typed = routed k .tty1 (s.handled ++ [ev]))).2 ⟨?_, fun k hk => ?_⟩
    · rw [routed_snoc, ← h.ttydev, if_pos ⟨hplain, rfl⟩, h.typed]
    · rw [routed_snoc, ← h.ttydev, if_neg fun hc => hk hc.2.symm, List.append_nil, h.typed]
  · refine (Function.forall_update_iff s.tty (p := fun _ t =>
      TtyInputInv t ∧ ReadsLines t)).2 ⟨?_, fun k _ => h.tty k⟩
    have hinv := TtyInputStep.inv (.cook hch hcook) (h.tty s.ttydev).1 (h.tty s.ttydev).2
    exact ⟨hinv.1, hinv.2.1⟩

omit [DecidableEq α] in
theorem TypingInv.read (h : TypingInv kb s) {k : TtyDev} {count : ℕ} {got : List UInt8}
    {t : TtyInputState} (hst : TtyInputStep (s.tty k) (.read count got) t) :
    TypingInv kb { s with tty := Function.update s.tty k t } := by
  have hinv := hst.inv (h.tty k).1 (h.tty k).2
  refine ⟨h.input, h.keyboard, h.pushed, h.popped, h.ttydev, ?_, ?_⟩
  · refine (Function.forall_update_iff s.tty (p := fun k t =>
      t.typed = routed k .tty1 s.handled)).2 ⟨?_, fun j _ => h.typed j⟩
    cases hst with
    | read _ => exact h.typed k
  · exact (Function.forall_update_iff s.tty (p := fun _ t =>
      TtyInputInv t ∧ ReadsLines t)).2 ⟨⟨hinv.1, hinv.2.1⟩, fun j _ => h.tty j⟩

/-- Every step keeps the invariant. -/
theorem TypingStep.inv {a : TypingAct} (hst : TypingStep inputTask ttyTask s a s')
    (h : TypingInv kb s) : TypingInv kb s' := by
  have hstep : ∀ {a input}, InputStep s.input a input → InputInv input := h.input.step
  cases hst with
  | quiet _ hcode => exact h.quiet hcode
  | key hcode hin => exact h.key hcode hin
  | idle _ hin => exact h.idle hin
  | signal hin => exact h.setInput (hstep hin) (by cases hin; rfl) (by cases hin; rfl)
  | wait _ hin => exact h.setInput (hstep hin) (by cases hin; rfl) (by cases hin; rfl)
  | leave hin => exact h.setInput (hstep hin) (by cases hin; rfl) (by cases hin; rfl)
  | pop hnone hin => exact h.pop hnone hin
  | handle hev hplain => exact h.handle hev hplain
  | cook hev hplain hcook => exact h.cook hev hplain hcook
  | read hread => exact h.read hread

end Inv

/-! ## What is typed is read -/

/-- At the end of a run: every read got the next line typed at its terminal, or the first bytes of
it, and when all events are handled a terminal has been given all that was typed at it. -/
structure TypingSound (kb : Keyboard) (s : TypingState α) : Prop where
  reads : ∀ k (i count : ℕ) (got : List UInt8), (s.tty k).reads[i]? = some (count, got) →
    ∃ line, (typedText (typedAt kb k s.codes)).lines[i]? = some line ∧ got = line.take count
  prefixes : ∀ k, (s.tty k).typed <+: typedAt kb k s.codes
  complete : s.ev = none → s.input.popped = s.input.pushed →
    ∀ k, (s.tty k).typed = typedAt kb k s.codes

omit [DecidableEq α] in
theorem TypingInv.sound {kb : Keyboard} {s : TypingState α} (h : TypingInv kb s) :
    TypingSound kb s := by
  have hfilter : ∀ k, routed k .tty1 s.input.pushed = typedAt kb k s.codes := by
    intro k
    rw [typedAt, ← h.pushed, routed_filter]
  have hhandled : s.handled <+: s.input.pushed := by
    refine List.IsPrefix.trans ?_ h.input.eventsInOrder.inOrder
    rw [← h.popped]
    exact List.prefix_append _ _
  have hbegins : ∀ k, (s.tty k).typed <+: typedAt kb k s.codes := by
    intro k
    rw [h.typed, ← hfilter]
    exact routed_prefix hhandled
  refine ⟨fun k i count got hi => ?_, hbegins, fun hev hall k => ?_⟩
  · rcases (h.tty k).2 i count got hi with ⟨line, hline, hgot⟩
    refine ⟨line, ?_, hgot⟩
    rcases typedText_lines_prefix (hbegins k) with ⟨rest, hrest⟩
    rw [← hrest, List.getElem?_append_left (List.getElem?_eq_some_iff.1 hline).1]
    exact hline
  · have hpopped := h.popped
    rw [hev, Option.toList_none, List.append_nil, hall] at hpopped
    rw [h.typed, hpopped, hfilter]

/-- For any keys, over every interleaving of the daemons and the readers. -/
theorem typingSound_of_run {kb : Keyboard} {inputTask ttyTask : α}
    {h : List (TypingState α × TypingAct)} {s : TypingState α}
    (hr : TypingRun kb inputTask ttyTask h s) : TypingSound kb s :=
  (hr.invariant (I := TypingInv kb) (fun _ hs => hs.inv) fun _ _ _ hI hst => hst.inv hI).sound

/-- With all flags down, the queues empty and their buffers all 0. -/
def typingStart : TypingState Bool :=
  ⟨⟨0, (0, 0), (0, 0), (0, 0)⟩, inputInit fun _ => ⟨0, 0, 0⟩, none, .tty1, fun _ => emptyTty, [], []⟩

/-- Shift, H and Enter go down; a read of `tty1` gets the line. -/
theorem typingSound_shift_h : ∃ h s, TypingRun ⟨0, (0, 0), (0, 0), (0, 0)⟩ false true h s ∧
    (s.tty .tty1).reads = [(5, [72, 10])] ∧ TypingSound ⟨0, (0, 0), (0, 0), (0, 0)⟩ s := by
  have hr : TypingRun ⟨0, (0, 0), (0, 0), (0, 0)⟩ false true _ _ :=
    Run.snoc (Run.snoc (Run.snoc (Run.snoc (Run.snoc (Run.snoc (Run.snoc (Run.snoc (Run.snoc
      (Run.snoc (Run.snoc (Run.snoc
      (Run.start (show TypingStart _ typingStart from
        ⟨rfl, ⟨_, rfl⟩, rfl, rfl, fun _ => ⟨rfl, rfl, rfl, rfl, rfl, rfl⟩, rfl, rfl⟩))
      (show TypingStep _ _ _ (.code 0x2a) _ from .quiet rfl rfl))
      (show TypingStep _ _ _ (.code 0x23) _ from
        .key (show inputCode _ _ = (_, some ⟨0, 0, 72⟩) from rfl) (.push rfl rfl)))
      (show TypingStep _ _ _ .signal _ from .signal (.signal rfl (.signal (by decide) rfl))))
      (show TypingStep _ _ _ .wait _ from .wait rfl (.wait rfl (.pass rfl rfl))))
      (show TypingStep _ _ _ (.pop ⟨0, 0, 72⟩) _ from .pop rfl (.pop ⟨rfl, rfl⟩ rfl)))
      (show TypingStep _ _ _ .cook _ from .cook rfl (by decide) rfl))
      (show TypingStep _ _ _ (.code 0x1c) _ from
        .key (show inputCode _ _ = (_, some ⟨0, 0, 10⟩) from rfl) (.push rfl rfl)))
      (show TypingStep _ _ _ .signal _ from .signal (.signal rfl (.signal (by decide) rfl))))
      (show TypingStep _ _ _ .wait _ from .wait rfl (.wait rfl (.pass rfl rfl))))
      (show TypingStep _ _ _ (.pop ⟨0, 0, 10⟩) _ from .pop rfl (.pop ⟨rfl, rfl⟩ rfl)))
      (show TypingStep _ _ _ .cook _ from .cook rfl (by decide) rfl))
      (show TypingStep _ _ _ (.read .tty1 5 [72, 10]) _ from
        .read (.read (show ttyRead 3 5 _ = some (_, _) from rfl)))
  exact ⟨_, _, hr, rfl, typingSound_of_run hr⟩

end OsLab
