import OsLab.Dev.KbdIrq

/-! # Every key gets through

While the controller has bytes, `dev_input_task` can be brought nearer to its next read: a handler
wakes it, or it is on its way already, and when the input queue is full `dev_tty_task` pops an
event first, without which `push_event` would panic. What is between two calls of `pop_event` in
`dev_tty_task` is taken to come to an end.
-/

namespace OsLab

open Tally Trace

variable {α : Type*} [DecidableEq α]

/-- `dev_input_task` pushes, and `dev_tty_task` pops. -/
def InputAct.By (inputTask ttyTask : α) : InputAct α → Prop
  | .push t _ | .signal t => t = inputTask
  | .wait t | .leave t | .pop t _ => t = ttyTask

/-- The input queue with its two tasks. -/
structure EventsInv (inputTask ttyTask : α) (s : InputState α) : Prop where
  inv : InputInv s
  fifo : Fifo s.eventSem
  pushes : ∀ t, s.pc t = .pushing → t = inputTask
  pops : ∀ t, s.pc t = .popping → t = ttyTask

/-! ## The input queue -/

section Events

variable {inputTask ttyTask : α} {s s' : InputState α}

omit [DecidableEq α] in
theorem eventsInv_init (events : ℕ → InputEvent) :
    EventsInv inputTask ttyTask (inputInit events : InputState α) := by
  have hsem : SemInv 0 (semStart 0 : SemState α) := semInv_start 0
  exact ⟨inputInv_init events,
    ⟨(Ring.window_eq_nil_iff hsem.ring.head_lt hsem.ring.tail_lt).2 rfl, fun _ => rfl⟩,
    nofun, nofun⟩

theorem EventsInv.semStep (h : EventsInv inputTask ttyTask s) {e : SemEvent α} {sem : SemState α}
    (hst : SemStep s.eventSem e sem) : Fifo sem :=
  h.fifo.step le_rfl h.inv.sem
    (h.inv.sem.room_of_only (fun t ht => h.pops t (h.inv.inLoop t ht)) e) hst

theorem EventsInv.step (h : EventsInv inputTask ttyTask s) {a : InputAct α}
    (hst : InputStep s a s') (hby : a.By inputTask ttyTask) : EventsInv inputTask ttyTask s' := by
  have hinv := h.inv.step hst
  -- the task that moves is where it may be, and the others stay
  have hmove : ∀ t v, (v = .pushing → t = inputTask) → (v = .popping → t = ttyTask) →
      (∀ u, Function.update s.pc t v u = .pushing → u = inputTask) ∧
        ∀ u, Function.update s.pc t v u = .popping → u = ttyTask := by
    intro t v hpush hpop
    refine ⟨fun u hu => ?_, fun u hu => ?_⟩
    · rcases (update_eq_iff u).1 hu with ⟨rfl, hv⟩ | ⟨-, hu⟩
      · exact hpush hv
      · exact h.pushes u hu
    · rcases (update_eq_iff u).1 hu with ⟨rfl, hv⟩ | ⟨-, hu⟩
      · exact hpop hv
      · exact h.pops u hu
  cases hst with
  | @push t ev q hpc hq =>
      obtain ⟨hpushes, hpops⟩ := hmove t .pushing (fun _ => hby) nofun
      exact ⟨hinv, h.fifo, hpushes, hpops⟩
  | @signal t sem hpc hsem =>
      obtain ⟨hpushes, hpops⟩ := hmove t .outside nofun nofun
      exact ⟨hinv, h.semStep hsem, hpushes, hpops⟩
  | @wait t sem hpc hsem =>
      obtain ⟨hpushes, hpops⟩ := hmove t .popping nofun fun _ => hby
      exact ⟨hinv, h.semStep hsem, hpushes, hpops⟩
  | leave hsem => exact ⟨hinv, h.semStep hsem, h.pushes, h.pops⟩
  | @pop t ev q hat hq =>
      obtain ⟨hpushes, hpops⟩ := hmove t .outside nofun nofun
      exact ⟨hinv, h.fifo, hpushes, hpops⟩

omit [DecidableEq α] in
/-- With an event in the ring, the semaphore has a resource for the task that has no grant. -/
theorem EventsInv.resource_pos (h : EventsInv inputTask ttyTask s)
    (hout : s.pc inputTask ≠ .pushing) (hno : ¬ s.Granted ttyTask) (hfull : s.queue.Full) :
    0 < s.eventSem.mem.resource := by
  rcases h.inv.queue with ⟨l, hl, hpushed⟩
  rcases h.inv.signals with ⟨m, hm, hsignals⟩
  rcases h.inv.grants with ⟨n, hn, hgrants⟩
  have hm0 : m = 0 := by
    by_contra hne
    rcases hm.exists_of_pos (Nat.pos_of_ne_zero hne) with ⟨t, ht⟩
    exact hout (h.pushes t ht ▸ ht)
  have hn0 : n = 0 := by
    by_contra hne
    rcases hn.exists_of_pos (Nat.pos_of_ne_zero hne) with ⟨t, ht⟩
    exact hno (h.pops t ht.1 ▸ ht)
  -- as many signals as events pushed, and as many grants as events popped: the ring is the rest
  have hpos := List.length_pos_of_ne_nil (hfull.ne_nil hl)
  have hlength := congrArg List.length hpushed
  rw [List.length_append] at hlength
  have hcount := h.inv.sem.count
  omega

/-- How far `dev_tty_task` is from its next event. -/
def InputState.ttyRank (s : InputState α) (ttyTask : α) : ℕ :=
  if s.pc ttyTask = .outside then 3
  else if s.eventSem.inLoop ttyTask then 2
  else 1

omit [DecidableEq α] in
theorem InputState.ttyRank_le (s : InputState α) (ttyTask : α) : s.ttyRank ttyTask ≤ 3 := by
  unfold InputState.ttyRank
  split
  · exact le_rfl
  · split <;> decide

/-- What is left to do until the queue has room. -/
def InputState.fullRank (s : InputState α) (ttyTask : α) : ℕ :=
  if s.queue.Full then s.ttyRank ttyTask else 0

omit [DecidableEq α] in
theorem InputState.fullRank_le (s : InputState α) (ttyTask : α) : s.fullRank ttyTask ≤ 3 := by
  unfold InputState.fullRank
  split
  · exact s.ttyRank_le ttyTask
  · exact Nat.zero_le 3

/-- While the queue is full, a step of `dev_tty_task` brings the next pop nearer. -/
theorem EventsInv.makeRoom (h : EventsInv inputTask ttyTask s) (hne : inputTask ≠ ttyTask)
    (hout : s.pc inputTask ≠ .pushing) (hfull : s.queue.Full) :
    ∃ s', (InputStep s (.wait ttyTask) s' ∨ InputStep s (.leave ttyTask) s' ∨
        ∃ ev, InputStep s (.pop ttyTask ev) s') ∧
      s'.pc inputTask = s.pc inputTask ∧ s'.fullRank ttyTask < s.fullRank ttyTask := by
  have hold : s.fullRank ttyTask = s.ttyRank ttyTask := if_pos hfull
  have hle : ∀ t : InputState α, t.fullRank ttyTask ≤ t.ttyRank ttyTask := by
    intro t
    unfold InputState.fullRank
    split
    · exact le_rfl
    · exact Nat.zero_le _
  cases hpc : s.pc ttyTask with
  | pushing => exact absurd (h.pushes ttyTask hpc).symm hne
  | outside =>
      have hin : s.eventSem.inLoop ttyTask = false := by
        rw [← Bool.not_eq_true]
        intro hin
        rw [h.inv.inLoop ttyTask hin] at hpc
        cases hpc
      -- there is an event, so `sem_wait` does not block
      have hpos := h.resource_pos hout (fun hg => by rw [hg.1] at hpc; cases hpc) hfull
      refine ⟨_, Or.inl (.wait hpc (.pass hin (if_pos hpos))), Function.update_of_ne hne _ _, ?_⟩
      rw [hold]
      refine (hle _).trans_lt ?_
      simp [InputState.ttyRank, hpc, hin]
  | popping =>
      cases hin : s.eventSem.inLoop ttyTask with
      | true =>
          -- it has been woken: nobody sleeps while there are resources
          have hbl : s.eventSem.mem.blocked ttyTask = false := by
            rw [← Bool.not_eq_true]
            intro hbl
            have hpos := h.resource_pos hout (fun hg => by rw [hg.2] at hbl; cases hbl) hfull
            have hmem := (h.inv.sem.waiting ttyTask).1 hbl
            rw [h.fifo.available hpos] at hmem
            cases hmem
          refine ⟨_, Or.inr (Or.inl (.leave (.leave hin hbl))), rfl, ?_⟩
          rw [hold]
          refine (hle _).trans_lt ?_
          simp [InputState.ttyRank, hpc, hin]
      | false =>
          rcases h.inv.queue with ⟨l, hl, -⟩
          obtain ⟨⟨ev, q⟩, hq⟩ := Option.ne_none_iff_exists'.1
            (h.inv.eventsInOrder.notEmpty ttyTask ⟨hpc, hin⟩)
          refine ⟨_, Or.inr (Or.inr ⟨ev, .pop ⟨hpc, hin⟩ hq⟩), Function.update_of_ne hne _ _, ?_⟩
          rw [hold, InputState.fullRank, if_neg (hfull.popEvent hl hq)]
          simp [InputState.ttyRank, hpc, hin]

end Events

/-! ## The two tasks and the interrupts -/

/-- How far `dev_input_task` is from its next read. -/
def KbdState.rank (s : KbdState α) (inputTask : α) : ℕ :=
  if s.pc = .wait then 4
  else if s.kbdirq.mem.blocked inputTask then if 0 < s.handlers then 2 else 3
  else if s.kbdirq.inLoop inputTask then 1
  else 0

/-- One while the task is in `push_event`. -/
def InputState.pushRank (s : InputState α) (inputTask : α) : ℕ :=
  if s.pc inputTask = .pushing then 1 else 0

/-- The reads that are left, and then how far it is to the next. -/
def KbdState.weight (inputTask ttyTask : α) (s : KbdState α) : ℕ :=
  16 * s.codes.length + s.rank inputTask + s.input.pushRank inputTask +
    s.input.fullRank ttyTask

/-- A step of the two tasks, or of an interrupt that is under way. -/
def OwnStep (inputTask ttyTask : α) (s : KbdState α) (a : KbdAct) (s' : KbdState α) : Prop :=
  (∀ code, a ≠ .press code) ∧ a ≠ .tick ∧ KbdStep inputTask ttyTask s a s'

structure DrainInv (inputTask ttyTask : α) (s : KbdState α) : Prop where
  kbd : KbdInv inputTask s
  events : EventsInv inputTask ttyTask s.input

section Progress

variable {inputTask ttyTask : α} {s s' : KbdState α}

omit [DecidableEq α] in
theorem KbdStart.drainInv (h : KbdStart s) : DrainInv inputTask ttyTask s := by
  refine ⟨h.inv, ?_⟩
  rcases h.input with ⟨events, hinput⟩
  rw [hinput]
  exact eventsInv_init events

theorem DrainInv.step (h : DrainInv inputTask ttyTask s) {a : KbdAct}
    (hst : KbdStep inputTask ttyTask s a s') : DrainInv inputTask ttyTask s' := by
  refine ⟨h.kbd.step hst, ?_⟩
  cases hst with
  | key _ _ _ _ hin => exact h.events.step hin rfl
  | idle _ _ hin => exact h.events.step hin rfl
  | signal hin => exact h.events.step hin rfl
  | ttyWait hin => exact h.events.step hin rfl
  | ttyLeave hin => exact h.events.step hin rfl
  | ttyPop hin => exact h.events.step hin rfl
  | _ => exact h.events

omit [DecidableEq α] in
theorem rank_le (s : KbdState α) (inputTask : α) : s.rank inputTask ≤ 4 := by
  unfold KbdState.rank
  split
  · exact le_rfl
  · split
    · split <;> decide
    · split <;> decide

omit [DecidableEq α] in
theorem rank_look_le (hpc : s.pc = .look) : s.rank inputTask ≤ 3 := by
  rw [KbdState.rank, hpc, if_neg nofun]
  split
  · split <;> decide
  · split <;> decide

omit [DecidableEq α] in
theorem InputState.pushRank_le (s : InputState α) (inputTask : α) : s.pushRank inputTask ≤ 1 := by
  unfold InputState.pushRank
  split <;> decide

/-- The task that waits is woken by the next signal. -/
theorem KbdInv.exists_signal (h : KbdInv inputTask s)
    (hbl : s.kbdirq.mem.blocked inputTask = true) :
    ∃ sem, SemStep s.kbdirq (.signal none) sem ∧ sem.mem.blocked inputTask = false := by
  have hmem := (h.sem.waiting inputTask).1 hbl
  obtain ⟨u, rest, hw⟩ := List.exists_cons_of_ne_nil (List.ne_nil_of_mem hmem)
  obtain ⟨m, hm, hblocked⟩ := (fifoSound_of_fifo le_rfl h.sem h.fifo).handsOver u rest hw
  have hu : u = inputTask := h.only u (h.sem.inLoop u ((h.sem.waiting u).2 (by rw [hw]; simp)))
  refine ⟨_, SemStep.signal nofun hm, ?_⟩
  simp only [hblocked, hu, Function.update_self]

/-- While the controller has bytes and the task is not at a read, a step of its wait or of an
interrupt brings the read nearer. -/
theorem KbdInv.nearer (h : KbdInv inputTask s) (hne : s.codes ≠ [])
    (hout : s.input.pc inputTask = .outside)
    (hread : ¬ (s.pc = .look ∧ s.kbdirq.inLoop inputTask = false)) :
    ∃ a s', OwnStep inputTask ttyTask s a s' ∧ s'.codes = s.codes ∧ s'.input = s.input ∧
      s'.rank inputTask < s.rank inputTask := by
  cases hpc : s.pc with
  | wait =>
      -- the call of `sem_wait` goes through in either way
      have hin := h.outside hpc
      obtain ⟨sem, hst⟩ : ∃ sem, SemStep s.kbdirq (.wait inputTask) sem := by
        cases hw : semWait inputTask s.kbdirq.mem with
        | mk fast m =>
            cases fast with
            | true => exact ⟨_, SemStep.pass hin hw⟩
            | false => exact ⟨_, SemStep.block hin hw⟩
      refine ⟨.wait, _, ⟨nofun, nofun, KbdStep.wait hpc hout hst⟩, rfl, rfl, ?_⟩
      have hle : KbdState.rank { s with kbdirq := sem, pc := .look } inputTask ≤ 3 :=
        rank_look_le rfl
      have hrank : s.rank inputTask = 4 := if_pos hpc
      rw [hrank]
      exact Nat.lt_succ_of_le hle
  | look =>
      have hin : s.kbdirq.inLoop inputTask = true := by
        rw [← Bool.not_eq_false]
        exact fun hin => hread ⟨hpc, hin⟩
      cases hbl : s.kbdirq.mem.blocked inputTask with
      | true =>
          by_cases hpos : 0 < s.handlers
          · -- the handler wakes the task
            obtain ⟨sem, hst, hwoken⟩ := h.exists_signal hbl
            refine ⟨.notify, _, ⟨nofun, nofun, KbdStep.notify hpos hst⟩, rfl, rfl, ?_⟩
            simp only [KbdState.rank, hpc, hbl, hwoken, hpos, reduceCtorEq, Bool.false_eq_true,
              if_false, if_true]
            split <;> decide
          · -- nobody is about to wake it, so the interrupt is still pending
            have hirq : s.irq = true := by
              rcases h.awake hne with hirq | hpos' | hpos' | ⟨-, hno⟩
              · exact hirq
              · exact absurd hpos' hpos
              · exact absurd hpos' (h.dry hbl)
              · rw [hbl] at hno
                cases hno
            refine ⟨.deliver, _, ⟨nofun, nofun, KbdStep.deliver hirq⟩, rfl, rfl, ?_⟩
            simp [KbdState.rank, hpc, hbl, hpos]
      | false =>
          refine ⟨.leave, _, ⟨nofun, nofun, KbdStep.leave (SemStep.leave hin hbl)⟩, rfl, rfl, ?_⟩
          simp [KbdState.rank, hpc, hbl, hin]

/-- With room in the queue, the task can read the byte that is presented. -/
theorem exists_read (hpc : s.pc = .look) (hin : s.kbdirq.inLoop inputTask = false)
    (hout : s.input.pc inputTask = .outside) (hroom : ¬ s.input.queue.Full) (hne : s.codes ≠ []) :
    ∃ s', OwnStep inputTask ttyTask s .read s' ∧ s'.codes.length + 1 = s.codes.length := by
  obtain ⟨code, codes, hcodes⟩ := List.exists_cons_of_ne_nil hne
  have hlength : codes.length + 1 = s.codes.length := by rw [hcodes, List.length_cons]
  cases hcode : inputCode code s.keyboard with
  | mk kb ev =>
      cases ev with
      | none => exact ⟨_, ⟨nofun, nofun, KbdStep.quiet hpc hin hout hcodes hcode⟩, hlength⟩
      | some ev =>
          obtain ⟨q, hq⟩ := exists_pushEvent hroom ev
          exact ⟨_, ⟨nofun, nofun, KbdStep.key hpc hin hcodes hcode (.push hout hq)⟩, hlength⟩

omit [DecidableEq α] in
/-- How full the queue is depends on the queue, and on where `dev_tty_task` is. -/
theorem InputState.fullRank_congr {input input' : InputState α} (hq : input'.queue = input.queue)
    (hpc : input'.pc ttyTask = input.pc ttyTask)
    (hin : input'.eventSem.inLoop = input.eventSem.inLoop) :
    input'.fullRank ttyTask = input.fullRank ttyTask := by
  rw [InputState.fullRank, InputState.fullRank, InputState.ttyRank, InputState.ttyRank, hq, hpc,
    hin]

/-- The end of `push_event` goes through. -/
theorem DrainInv.exists_pushed (h : DrainInv inputTask ttyTask s) (htasks : inputTask ≠ ttyTask)
    (hpush : s.input.pc inputTask = .pushing) :
    ∃ input, InputStep s.input (.signal inputTask) input ∧ input.pc inputTask = .outside ∧
      input.fullRank ttyTask = s.input.fullRank ttyTask := by
  obtain ⟨popped, m, hm⟩ := h.events.inv.sem.ring.exists_semSignal
  have hin : s.input.eventSem.inLoop inputTask = false := by
    rw [← Bool.not_eq_true]
    intro hin
    have hpop := h.events.inv.inLoop inputTask hin
    rw [hpush] at hpop
    cases hpop
  have hcaller : ∀ t ∈ some inputTask, s.input.eventSem.inLoop t = false := by
    rintro t ⟨⟩
    exact hin
  refine ⟨_, .signal hpush (.signal hcaller hm), Function.update_self _ _ _, ?_⟩
  exact InputState.fullRank_congr rfl (Function.update_of_ne htasks.symm _ _) rfl

/-- While the controller has bytes, a step brings the next read nearer. -/
theorem DrainInv.down (h : DrainInv inputTask ttyTask s) (htasks : inputTask ≠ ttyTask)
    (hne : s.codes ≠ []) :
    ∃ a s', OwnStep inputTask ttyTask s a s' ∧
      s'.weight inputTask ttyTask < s.weight inputTask ttyTask := by
  cases hpush : s.input.pc inputTask with
  | popping => exact absurd (h.events.pops inputTask hpush) htasks
  | pushing =>
      -- first the end of the call under way
      obtain ⟨input, hst, hpc, hfull⟩ := h.exists_pushed htasks hpush
      refine ⟨.signal, _, ⟨nofun, nofun, KbdStep.signal hst⟩, ?_⟩
      have hrank : KbdState.rank { s with input := input } inputTask = s.rank inputTask := rfl
      simp [KbdState.weight, InputState.pushRank, hrank, hfull, hpc, hpush]
  | outside =>
      by_cases hread : s.pc = .look ∧ s.kbdirq.inLoop inputTask = false
      · by_cases hfull : s.input.queue.Full
        · -- an event is popped first
          obtain ⟨input, hst, hpc, hlt⟩ := h.events.makeRoom htasks (by simp [hpush]) hfull
          have hown : ∃ a, OwnStep inputTask ttyTask s a { s with input := input } := by
            rcases hst with hst | hst | ⟨ev, hst⟩
            · exact ⟨.ttyWait, nofun, nofun, .ttyWait hst⟩
            · exact ⟨.ttyLeave, nofun, nofun, .ttyLeave hst⟩
            · exact ⟨.ttyPop ev, nofun, nofun, .ttyPop hst⟩
          obtain ⟨a, hown⟩ := hown
          refine ⟨a, _, hown, ?_⟩
          have hrank : KbdState.rank { s with input := input } inputTask = s.rank inputTask := rfl
          have hpushRank : input.pushRank inputTask = s.input.pushRank inputTask := by
            rw [InputState.pushRank, InputState.pushRank, hpc]
          simp only [KbdState.weight, hrank, hpushRank]
          exact Nat.add_lt_add_left hlt _
        · -- a byte less, which outweighs all ranks
          obtain ⟨s', hown, hlength⟩ := exists_read hread.1 hread.2 hpush hfull hne
          refine ⟨.read, s', hown, ?_⟩
          have hrank := rank_le s' inputTask
          have hpushRank := s'.input.pushRank_le inputTask
          have hfullRank := s'.input.fullRank_le ttyTask
          rw [KbdState.weight, KbdState.weight, ← hlength]
          omega
      · obtain ⟨a, s', hown, hcodes, hinput, hlt⟩ := h.kbd.nearer hne hpush hread
        refine ⟨a, s', hown, ?_⟩
        rw [KbdState.weight, KbdState.weight, hcodes, hinput]
        omega

end Progress

/-- From every state of every run `dev_input_task` gets all bytes that have come, with no more than
the steps of the two tasks and the interrupts that are under way. -/
theorem kbd_can_drain {inputTask ttyTask : α} (htasks : inputTask ≠ ttyTask)
    {h : List (KbdState α × KbdAct)} {s : KbdState α}
    (hr : Run KbdStart (KbdStep inputTask ttyTask) h s) :
    ∃ t, Relation.ReflTransGen (fun a b => ∃ e, OwnStep inputTask ttyTask a e b) s t ∧
      t.taken = s.came := by
  have hinv := hr.invariant (I := DrainInv inputTask ttyTask) (fun _ hs => hs.drainInv)
    fun _ _ _ hs hst => hs.step hst
  -- no byte comes in between
  have hkeep : ∀ u a v, DrainInv inputTask ttyTask u ∧ u.came = s.came →
      OwnStep inputTask ttyTask u a v → DrainInv inputTask ttyTask v ∧ v.came = s.came := by
    rintro u a v ⟨hu, hcame⟩ ⟨hpress, -, hst⟩
    refine ⟨hu.step hst, ?_⟩
    cases hst with
    | press => exact absurd rfl (hpress _)
    | _ => exact hcame
  obtain ⟨t, ht, ⟨htinv, hcame⟩, hnil⟩ := exists_goal_of_measure
    (G := fun s => s.codes = []) (KbdState.weight inputTask ttyTask) hkeep
    (fun u hu hne => hu.1.down htasks hne) ⟨hinv, rfl⟩
  refine ⟨t, ht, ?_⟩
  rw [← hcame, htinv.kbd.order, hnil, List.append_nil]

theorem kbd_drain_pressedA : ∃ h s t, Run KbdStart (KbdStep false true) h s ∧
    s.kbdirq.mem.blocked false = true ∧ s.taken = [] ∧
    Relation.ReflTransGen (fun a b => ∃ e, OwnStep false true a e b) s t ∧ t.taken = [0x1e] := by
  obtain ⟨h, s, hr, hbl, hcame, htaken⟩ := pressedA_run
  obtain ⟨t, ht, hall⟩ := kbd_can_drain (by decide) hr
  exact ⟨h, s, t, hr, hbl, htaken, ht, hall.trans hcame⟩

end OsLab
