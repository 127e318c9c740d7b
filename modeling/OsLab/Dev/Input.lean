import OsLab.Lib.Tally
import OsLab.Sem.Inv

/-! # The input queue (`dev_input.c`)

`push_event` puts an event into a ring of `NEVENTS` cells under `lock`, and signals
`event_sem` only after it has dropped the lock. `pop_event` waits on `event_sem`, and
takes the lock only after its wait is granted. So the ring and the semaphore count
the same events at different times: an event is in the ring before it is signalled,
and a grant is given out before its event leaves the ring.

A step of the system is one critical section of one task, under `lock` or within the
semaphore, or a task that leaves the loop of `sem_wait`. The panic "input queue full"
ends a run: a `push_event` that meets it is no step. How many tasks wait at once does
not matter here, since a waiter that the semaphore has lost never comes back to pop.
-/

namespace OsLab

open Tally Trace

def NEVENTS : ℕ := 128

/-- `struct input_event`. -/
structure InputEvent where
  ctrl : BitVec 1
  alt : BitVec 1
  data : BitVec 16
deriving DecidableEq

/-- The ring of `input_t`. -/
structure InputQueue where
  events : ℕ → InputEvent
  front : ℕ
  rear : ℕ

/-- `is_empty`. -/
def isEmpty (q : InputQueue) : Bool := q.rear = q.front

/-- The critical section of `push_event`; `none` is the panic "input queue full". -/
def pushEvent (ev : InputEvent) (q : InputQueue) : Option InputQueue :=
  let q := { q with events := Function.update q.events q.rear ev }
  let q := { q with rear := (q.rear + 1) % NEVENTS }
  if isEmpty q then none else some q

/-- The critical section of `pop_event`; `none` is the panic "input queue empty". -/
def popEvent (q : InputQueue) : Option (InputEvent × InputQueue) :=
  if isEmpty q then none
  else
    let idx := q.front
    let q := { q with front := (q.front + 1) % NEVENTS }
    some (q.events idx, q)

/-! ## The ring -/

/-- The ring holds the events `l`. -/
def InputQueue.Holds (q : InputQueue) (l : List InputEvent) : Prop :=
  Ring.Holds NEVENTS q.events q.front q.rear l

section Queue

variable {q q' : InputQueue} {l : List InputEvent} {ev : InputEvent}

/-- An event comes in behind the others. -/
theorem InputQueue.Holds.pushEvent (h : q.Holds l) (hq : pushEvent ev q = some q') :
    q'.Holds (l ++ [ev]) := by
  unfold OsLab.pushEvent at hq
  simp only at hq
  split at hq
  · cases hq
  · rename_i hfull
    obtain rfl := Option.some.inj hq
    exact h.push (fun he => hfull (decide_eq_true he)) ev

/-- The first event goes out. -/
theorem InputQueue.Holds.popEvent (h : q.Holds l) (hq : popEvent q = some (ev, q')) :
    ∃ l', l = ev :: l' ∧ q'.Holds l' := by
  unfold OsLab.popEvent at hq
  split at hq
  · cases hq
  · rename_i hne
    rcases Prod.mk.inj (Option.some.inj hq) with ⟨rfl, rfl⟩
    cases l with
    | nil => exact absurd (decide_eq_true (h.eq_iff.2 rfl).symm) hne
    | cons ev' l =>
        rcases h.pop with ⟨rfl, hrest⟩
        exact ⟨l, rfl, hrest⟩

/-- The push of one more event panics. -/
def InputQueue.Full (q : InputQueue) : Prop := (q.rear + 1) % NEVENTS = q.front

instance (q : InputQueue) : Decidable q.Full := inferInstanceAs (Decidable (_ = _))

theorem exists_pushEvent (hq : ¬ q.Full) (ev : InputEvent) : ∃ q', pushEvent ev q = some q' := by
  refine ⟨_, if_neg ?_⟩
  simpa [isEmpty, InputQueue.Full] using hq

/-- A full ring has an event to pop. -/
theorem InputQueue.Full.ne_nil (hq : q.Full) (h : q.Holds l) : l ≠ [] := by
  rintro rfl
  have heq : q.front = q.rear := h.eq_iff.2 rfl
  have hlt := h.tail_lt
  have hfull : (q.rear + 1) % NEVENTS = q.front := hq
  simp only [NEVENTS] at hlt hfull
  omega

/-- A pop makes room in a full ring. -/
theorem InputQueue.Full.popEvent (hfull : q.Full) (h : q.Holds l)
    (hq : popEvent q = some (ev, q')) : ¬ q'.Full := by
  unfold OsLab.popEvent at hq
  split at hq
  · cases hq
  · obtain ⟨-, rfl⟩ := Prod.mk.inj (Option.some.inj hq)
    have hlt := h.head_lt
    simp only [InputQueue.Full, NEVENTS] at hfull hlt ⊢
    omega

theorem InputQueue.Holds.popEvent_ne_none (h : q.Holds l) (hl : l ≠ []) :
    OsLab.popEvent q ≠ none := by
  unfold OsLab.popEvent
  rw [if_neg fun he => hl (h.eq_iff.1 (of_decide_eq_true he).symm)]
  exact Option.some_ne_none _

end Queue

/-! ## The system -/

/-- Where a task is: in neither function, in `push_event` with the lock dropped, or in `pop_event`
before the lock is taken. -/
inductive InputPc
  | outside
  | pushing
  | popping
deriving DecidableEq

variable {α : Type*} [DecidableEq α]

/-- The queue with `event_sem` and its tasks. `pushed` and `popped` are ghosts: the events that went
in and came out. -/
structure InputState (α : Type*) where
  queue : InputQueue
  eventSem : SemState α
  pc : α → InputPc
  pushed : List InputEvent
  popped : List InputEvent

inductive InputAct (α : Type*)
  | push (t : α) (ev : InputEvent)
  | signal (t : α)
  | wait (t : α)
  | leave (t : α)
  | pop (t : α) (ev : InputEvent)

/-- Task `t` is to take the lock in `pop_event`. -/
def InputState.AtPop (s : InputState α) (t : α) : Prop :=
  s.pc t = .popping ∧ s.eventSem.inLoop t = false

inductive InputStep : InputState α → InputAct α → InputState α → Prop
  | push {s : InputState α} {t : α} {ev : InputEvent} {q : InputQueue} :
      s.pc t = .outside → pushEvent ev s.queue = some q →
      InputStep s (.push t ev) { s with
        queue := q
        pc := Function.update s.pc t .pushing
        pushed := s.pushed ++ [ev] }
  | signal {s : InputState α} {t : α} {sem : SemState α} :
      s.pc t = .pushing → SemStep s.eventSem (.signal (some t)) sem →
      InputStep s (.signal t) { s with
        eventSem := sem
        pc := Function.update s.pc t .outside }
  | wait {s : InputState α} {t : α} {sem : SemState α} :
      s.pc t = .outside → SemStep s.eventSem (.wait t) sem →
      InputStep s (.wait t) { s with
        eventSem := sem
        pc := Function.update s.pc t .popping }
  | leave {s : InputState α} {t : α} {sem : SemState α} :
      SemStep s.eventSem (.leave t) sem →
      InputStep s (.leave t) { s with eventSem := sem }
  | pop {s : InputState α} {t : α} {ev : InputEvent} {q : InputQueue} :
      s.AtPop t → popEvent s.queue = some (ev, q) →
      InputStep s (.pop t ev) { s with
        queue := q
        pc := Function.update s.pc t .outside
        popped := s.popped ++ [ev] }

/-- The state `input_init` leaves; the cells hold what was in the memory. -/
def inputInit (events : ℕ → InputEvent) : InputState α where
  queue := ⟨events, 0, 0⟩
  eventSem := semStart 0
  pc := fun _ => .outside
  pushed := []
  popped := []

def InputRun : List (InputState α × InputAct α) → InputState α → Prop :=
  Run (fun s => ∃ events, s = inputInit events) InputStep

/-- Every event is delivered once and in order. -/
structure EventsInOrder (s : InputState α) : Prop where
  inOrder : s.popped <+: s.pushed
  count : ((s.queue.rear : ℤ) - s.queue.front) % NEVENTS =
    (s.pushed.length : ℤ) - s.popped.length
  /-- the panic "input queue empty" is out of reach -/
  notEmpty : ∀ t, s.AtPop t → popEvent s.queue ≠ none

/-! ## The invariant -/

/-- Task `t` has its grant, and its event is still to be popped. -/
def InputState.Granted (s : InputState α) (t : α) : Prop :=
  s.pc t = .popping ∧ s.eventSem.mem.blocked t = false

/-- The two counts: what is in the ring but not signalled, and what is granted but not popped. -/
structure InputInv (s : InputState α) : Prop where
  queue : ∃ l, s.queue.Holds l ∧ s.popped ++ l = s.pushed
  sem : SemInv 0 s.eventSem
  inLoop : ∀ t, s.eventSem.inLoop t = true → s.pc t = .popping
  signals : ∃ n, Counts (fun t => s.pc t = .pushing) n ∧ s.eventSem.signals + n = s.pushed.length
  grants : ∃ n, Counts s.Granted n ∧ s.popped.length + n = s.eventSem.grants

omit [DecidableEq α] in
theorem inputInv_init (events : ℕ → InputEvent) : InputInv (inputInit events : InputState α) where
  queue := by
    have hpos : 0 < NEVENTS := Nat.two_pow_pos 7
    exact ⟨[], Ring.Holds.nil hpos, rfl⟩
  sem := semInv_start 0
  inLoop := nofun
  signals := ⟨0, counts_zero nofun, rfl⟩
  grants := ⟨0, counts_zero nofun, rfl⟩

omit [DecidableEq α] in
/-- A task that is to pop finds its event: every grant was signalled, and every signal is for an
event in the ring. -/
theorem InputInv.eventsInOrder {s : InputState α} (h : InputInv s) : EventsInOrder s := by
  rcases h.queue with ⟨l, hl, hpushed⟩
  have hlength := congrArg List.length hpushed
  rw [List.length_append] at hlength
  refine ⟨⟨l, hpushed⟩, ?_, ?_⟩
  · rw [← Ring.len_eq_emod hl.head_lt, hl.len_eq, ← hlength]
    push_cast
    omega
  · rintro t ⟨hpc, hout⟩
    rcases h.signals with ⟨m, -, hm⟩
    rcases h.grants with ⟨n, hn, hgrants⟩
    have hpos := hn.pos ⟨hpc, h.sem.blocked_of_not_inLoop hout⟩
    have hcount := h.sem.count
    have hnonneg := h.sem.nonneg (Int.le_refl 0)
    apply hl.popEvent_ne_none
    rintro rfl
    rw [List.length_nil] at hlength
    omega

section Steps

variable {s s' : InputState α} {t : α} {a : InputAct α} {ev : InputEvent} {q : InputQueue}
  {sem : SemState α}

omit [DecidableEq α] in
/-- A task outside `pop_event` is not in the loop of `sem_wait`. -/
theorem InputInv.ne_of_inLoop (h : InputInv s) (hpc : s.pc t ≠ .popping) {u : α}
    (hu : s.eventSem.inLoop u = true) : u ≠ t := by
  rintro rfl
  exact hpc (h.inLoop u hu)

theorem InputInv.push (h : InputInv s) (hpc : s.pc t = .outside)
    (hq : pushEvent ev s.queue = some q) :
    InputInv { s with
      queue := q
      pc := Function.update s.pc t .pushing
      pushed := s.pushed ++ [ev] } where
  queue := by
    rcases h.queue with ⟨l, hl, hpushed⟩
    exact ⟨l ++ [ev], hl.pushEvent hq, by rw [← hpushed, List.append_assoc]⟩
  sem := h.sem
  inLoop u hu := by
    have hne : u ≠ t := h.ne_of_inLoop (by simp [hpc]) hu
    simp only [Function.update_of_ne hne]
    exact h.inLoop u hu
  signals := by
    rcases h.signals with ⟨n, hn, hsignals⟩
    refine ⟨n + 1, hn.enter (by simp [hpc]), ?_⟩
    rw [List.length_append, List.length_singleton, ← hsignals, Nat.add_assoc]
  grants := by
    rcases h.grants with ⟨n, hn, hgrants⟩
    refine ⟨n, hn.congr fun u => ?_, hgrants⟩
    by_cases hut : u = t <;> simp [InputState.Granted, hut, hpc]

/-- The signal of an event: the count moves from the ring to the semaphore, and a task that waits
may be granted. -/
theorem InputInv.signal (h : InputInv s) (hpc : s.pc t = .pushing)
    (hst : SemStep s.eventSem (.signal (some t)) sem) :
    InputInv { s with
      eventSem := sem
      pc := Function.update s.pc t .outside } := by
  rcases h.sem.signal_cases hst with ⟨hin, hsig, hcases⟩
  rcases h.signals with ⟨m, hm, hsignals⟩
  rcases h.grants with ⟨n, hn, hgrants⟩
  refine ⟨h.queue, h.sem.step hst, ?_, ?_, ?_⟩
  · intro u hu
    simp only [hin] at hu
    have hne : u ≠ t := h.ne_of_inLoop (by simp [hpc]) hu
    simp only [Function.update_of_ne hne]
    exact h.inLoop u hu
  · rcases hm.exit (v := .outside) hpc nofun with ⟨k, hk, hkm⟩
    refine ⟨k, hk, ?_⟩
    simp only [hsig]
    omega
  · rcases hcases with ⟨u, hbl, hblocked, hgr⟩ | ⟨hblocked, hgr⟩
    · -- the task that is granted is another one, in the loop
      have hpop := h.inLoop u (h.sem.inLoop u hbl)
      have hut : u ≠ t := h.ne_of_inLoop (by simp [hpc]) (h.sem.inLoop u hbl)
      refine ⟨n + 1, hn.add (a := u) ?_ fun v => ?_, ?_⟩
      · rintro ⟨-, hno⟩
        cases hbl.symm.trans hno
      · by_cases hvu : v = u
        · simp [InputState.Granted, hvu, hut, hpop, hblocked]
        · by_cases hvt : v = t <;> simp [InputState.Granted, hvu, hvt, hpc, hblocked, Ne.symm hut]
      · simp only [hgr]
        omega
    · refine ⟨n, hn.congr fun v => ?_, ?_⟩
      · by_cases hvt : v = t <;> simp [InputState.Granted, hvt, hpc, hblocked]
      · simp only [hgr]
        exact hgrants

theorem InputInv.wait (h : InputInv s) (hpc : s.pc t = .outside)
    (hst : SemStep s.eventSem (.wait t) sem) :
    InputInv { s with
      eventSem := sem
      pc := Function.update s.pc t .popping } := by
  rcases h.sem.wait_cases hst with ⟨hbl, hsig, hcases⟩
  rcases h.signals with ⟨m, hm, hsignals⟩
  rcases h.grants with ⟨n, hn, hgrants⟩
  refine ⟨h.queue, h.sem.step hst, ?_, ?_, ?_⟩
  · intro u hu
    by_cases hut : u = t
    · simp [hut]
    · have hold : s.eventSem.inLoop u = true := by
        rcases hcases with ⟨hin, -⟩ | ⟨hin, -⟩
        · simpa [hin] using hu
        · simpa [hin, hut] using hu
      simp only [Function.update_of_ne hut]
      exact h.inLoop u hold
  · refine ⟨m, hm.pass (by simp [hpc]) nofun, ?_⟩
    simp only [hsig]
    exact hsignals
  · rcases hcases with ⟨-, hblocked, hgr⟩ | ⟨-, hblocked, hgr⟩
    · -- granted at once
      refine ⟨n + 1, hn.add (a := t) (by simp [InputState.Granted, hpc]) fun u => ?_, ?_⟩
      · by_cases hut : u = t <;> simp [InputState.Granted, hut, hbl, hblocked]
      · simp only [hgr]
        omega
    · refine ⟨n, hn.congr fun u => ?_, ?_⟩
      · by_cases hut : u = t <;> simp [InputState.Granted, hut, hpc, hblocked]
      · simp only [hgr]
        exact hgrants

theorem InputInv.leave (h : InputInv s) (hst : SemStep s.eventSem (.leave t) sem) :
    InputInv { s with eventSem := sem } := by
  have hsem := h.sem.step hst
  cases hst with
  | leave hin hbl =>
      refine ⟨h.queue, hsem, ?_, h.signals, h.grants⟩
      intro u hu
      by_cases hut : u = t
      · simp [hut] at hu
      · simp only [Function.update_of_ne hut] at hu
        exact h.inLoop u hu

theorem InputInv.pop (h : InputInv s) (ht : s.AtPop t) (hq : popEvent s.queue = some (ev, q)) :
    InputInv { s with
      queue := q
      pc := Function.update s.pc t .outside
      popped := s.popped ++ [ev] } where
  queue := by
    rcases h.queue with ⟨l, hl, hpushed⟩
    rcases hl.popEvent hq with ⟨l', rfl, hl'⟩
    exact ⟨l', hl', by rw [← hpushed, List.append_assoc, List.singleton_append]⟩
  sem := h.sem
  inLoop u hu := by
    have hne : u ≠ t := by
      rintro rfl
      cases hu.symm.trans ht.2
    simp only [Function.update_of_ne hne]
    exact h.inLoop u hu
  signals := by
    rcases h.signals with ⟨n, hn, hsignals⟩
    exact ⟨n, hn.pass (by simp [ht.1]) nofun, hsignals⟩
  grants := by
    rcases h.grants with ⟨n, hn, hgrants⟩
    rcases hn.remove (a := t) ⟨ht.1, h.sem.blocked_of_not_inLoop ht.2⟩ (Q := fun u =>
      Function.update s.pc t InputPc.outside u = .popping ∧ s.eventSem.mem.blocked u = false)
      fun u => by by_cases hut : u = t <;> simp [InputState.Granted, hut] with ⟨k, hk, hkn⟩
    refine ⟨k, hk, ?_⟩
    simp only [List.length_append, List.length_singleton]
    omega

/-- Every step keeps the invariant. -/
theorem InputInv.step (h : InputInv s) (hst : InputStep s a s') : InputInv s' := by
  cases hst with
  | push hpc hq => exact h.push hpc hq
  | signal hpc hsem => exact h.signal hpc hsem
  | wait hpc hsem => exact h.wait hpc hsem
  | leave hsem => exact h.leave hsem
  | pop ht hq => exact h.pop ht hq

end Steps

theorem InputRun.inv {h : List (InputState α × InputAct α)} {s : InputState α}
    (hr : InputRun h s) : InputInv s := by
  refine hr.invariant ?_ ?_
  · rintro s ⟨events, rfl⟩
    exact inputInv_init events
  · intro s a t hI hst
    exact hI.step hst

/-- For any number of tasks, over every interleaving and every wrap of the ring. -/
theorem eventsInOrder_of_run {h : List (InputState α × InputAct α)} {s : InputState α}
    (hr : InputRun h s) : EventsInOrder s :=
  hr.inv.eventsInOrder

/-- Task `true` waits for an event that task `false` pushes, and pops it. -/
theorem eventsInOrder_two_tasks : ∃ h s, InputRun (α := Bool) h s ∧ s.popped = [⟨0, 0, 97⟩] ∧
    EventsInOrder s := by
  have hr : InputRun (α := Bool) _ _ :=
    Run.snoc (Run.snoc (Run.snoc (Run.snoc (Run.snoc (Run.start ⟨fun _ => ⟨0, 0, 0⟩, rfl⟩)
      (show InputStep _ (.wait true) _ from .wait rfl (.block rfl rfl)))
      (show InputStep _ (.push false ⟨0, 0, 97⟩) _ from .push rfl rfl))
      (show InputStep _ (.signal false) _ from .signal rfl (.signal (by decide) rfl)))
      (show InputStep _ (.leave true) _ from .leave (.leave rfl rfl)))
      (show InputStep _ (.pop true ⟨0, 0, 97⟩) _ from .pop ⟨rfl, rfl⟩ rfl)
  exact ⟨_, _, hr, rfl, eventsInOrder_of_run hr⟩

end OsLab
