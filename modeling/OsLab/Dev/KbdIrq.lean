import OsLab.Dev.Keyboard
import OsLab.Sem.Fifo

/-! # The keyboard interrupt (`dev_input_task`, `input_notify`)

`dev_input_task` reads the keyboard controller until a read has no key for it, and then waits on
`sem_kbdirq`, which the handler of the keyboard interrupt signals, and the one of the timer too.
A read has no key when the controller is empty, but also when the byte stands for no key; then
more bytes may be left behind it. A key that stands for a character goes into the input queue,
from which `dev_tty_task` pops it; with the queue full, `push_event` panics, so that there is no
such read.

The controller, a queue without bound here, presents the oldest byte, and raises the interrupt
each time it presents one. The interrupt stays pending until a processor takes it; `handlers`
counts those that have taken it and have not signalled yet. `dev_input_task` is the only one that
waits on `sem_kbdirq`. Whether it is time for an idle event is left open.
-/

namespace OsLab

open Trace

variable {α : Type*} [DecidableEq α]

/-- Where `dev_input_task` is: before a read of the controller, or past its reads and before
`sem_wait`. In the loop of `sem_wait` it is on its way to a read. -/
inductive KbdPc
  | look
  | wait
deriving DecidableEq

structure KbdState (α : Type*) where
  /-- the bytes in the controller -/
  codes : List UInt8
  irq : Bool
  handlers : ℕ
  kbdirq : SemState α
  pc : KbdPc
  keyboard : Keyboard
  /-- the input queue; a task of it that is `pushing` is still in `push_event` -/
  input : InputState α
  /-- ghosts: all bytes that came, and those that were read -/
  came : List UInt8
  taken : List UInt8

inductive KbdAct
  | press (code : UInt8)
  | tick
  | deliver
  | notify
  | read
  | idle
  | signal
  | wait
  | leave
  | ttyWait
  | ttyLeave
  | ttyPop (ev : InputEvent)

/-- What `dev_input_task` does after a read: a key lets it read on. -/
def afterRead (code : UInt8) : KbdPc := if (inputKeybrd code).keycode = .NONE then .wait else .look

/-- `dev_input_task` and `dev_tty_task` are the tasks `inputTask` and `ttyTask`. -/
inductive KbdStep (inputTask ttyTask : α) : KbdState α → KbdAct → KbdState α → Prop
  | press {s : KbdState α} {code : UInt8} :
      KbdStep inputTask ttyTask s (.press code) { s with
        codes := s.codes ++ [code]
        irq := s.irq || s.codes.isEmpty
        came := s.came ++ [code] }
  | tick {s : KbdState α} {sem : SemState α} (hst : SemStep s.kbdirq (.signal none) sem) :
      KbdStep inputTask ttyTask s .tick { s with kbdirq := sem }
  | deliver {s : KbdState α} (hirq : s.irq = true) :
      KbdStep inputTask ttyTask s .deliver { s with irq := false, handlers := s.handlers + 1 }
  | notify {s : KbdState α} {sem : SemState α} (hpos : 0 < s.handlers)
      (hst : SemStep s.kbdirq (.signal none) sem) :
      KbdStep inputTask ttyTask s .notify { s with kbdirq := sem, handlers := s.handlers - 1 }
  /-- A byte without an event. -/
  | quiet {s : KbdState α} {code : UInt8} {codes : List UInt8} {kb : Keyboard}
      (hpc : s.pc = .look) (hout : s.kbdirq.inLoop inputTask = false)
      (hpush : s.input.pc inputTask = .outside) (hcodes : s.codes = code :: codes)
      (hcode : inputCode code s.keyboard = (kb, none)) :
      KbdStep inputTask ttyTask s .read { s with
        codes := codes
        irq := s.irq || !codes.isEmpty
        pc := afterRead code
        keyboard := kb
        taken := s.taken ++ [code] }
  /-- A byte with an event, which goes into the queue. -/
  | key {s : KbdState α} {code : UInt8} {codes : List UInt8} {kb : Keyboard} {ev : InputEvent}
      {input : InputState α} (hpc : s.pc = .look) (hout : s.kbdirq.inLoop inputTask = false)
      (hcodes : s.codes = code :: codes) (hcode : inputCode code s.keyboard = (kb, some ev))
      (hst : InputStep s.input (.push inputTask ev) input) :
      KbdStep inputTask ttyTask s .read { s with
        codes := codes
        irq := s.irq || !codes.isEmpty
        pc := afterRead code
        keyboard := kb
        input := input
        taken := s.taken ++ [code] }
  | empty {s : KbdState α} (hpc : s.pc = .look) (hout : s.kbdirq.inLoop inputTask = false)
      (hpush : s.input.pc inputTask = .outside) (hcodes : s.codes = []) :
      KbdStep inputTask ttyTask s .read { s with pc := .wait }
  | idle {s : KbdState α} {input : InputState α} (hpc : s.pc = .wait)
      (hempty : isEmpty s.input.queue = true)
      (hst : InputStep s.input (.push inputTask idleEvent) input) :
      KbdStep inputTask ttyTask s .idle { s with input := input }
  /-- The end of `push_event`: `kmt->sem_signal(&in->event_sem);` -/
  | signal {s : KbdState α} {input : InputState α}
      (hst : InputStep s.input (.signal inputTask) input) :
      KbdStep inputTask ttyTask s .signal { s with input := input }
  | wait {s : KbdState α} {sem : SemState α} (hpc : s.pc = .wait)
      (hpush : s.input.pc inputTask = .outside)
      (hst : SemStep s.kbdirq (.wait inputTask) sem) :
      KbdStep inputTask ttyTask s .wait { s with kbdirq := sem, pc := .look }
  | leave {s : KbdState α} {sem : SemState α} (hst : SemStep s.kbdirq (.leave inputTask) sem) :
      KbdStep inputTask ttyTask s .leave { s with kbdirq := sem }
  /-- `dev_tty_task`: `pop_event`. -/
  | ttyWait {s : KbdState α} {input : InputState α}
      (hst : InputStep s.input (.wait ttyTask) input) :
      KbdStep inputTask ttyTask s .ttyWait { s with input := input }
  | ttyLeave {s : KbdState α} {input : InputState α}
      (hst : InputStep s.input (.leave ttyTask) input) :
      KbdStep inputTask ttyTask s .ttyLeave { s with input := input }
  | ttyPop {s : KbdState α} {ev : InputEvent} {input : InputState α}
      (hst : InputStep s.input (.pop ttyTask ev) input) :
      KbdStep inputTask ttyTask s (.ttyPop ev) { s with input := input }

/-- After `input_init`, when `dev_input_task` starts. -/
structure KbdStart (s : KbdState α) : Prop where
  codes : s.codes = []
  kbdirq : s.kbdirq = semStart 0
  pc : s.pc = .look
  input : ∃ events, s.input = inputInit events
  came : s.came = []
  taken : s.taken = []

/-- The task does not sleep over a key: something is under way that lets it look again. -/
def KbdState.Awake (s : KbdState α) (inputTask : α) : Prop :=
  s.irq = true ∨ 0 < s.handlers ∨ 0 < s.kbdirq.mem.resource ∨
    s.pc = .look ∧ s.kbdirq.mem.blocked inputTask = false

structure KbdInv (inputTask : α) (s : KbdState α) : Prop where
  sem : SemInv 0 s.kbdirq
  fifo : Fifo s.kbdirq
  only : ∀ t, s.kbdirq.inLoop t = true → t = inputTask
  outside : s.pc = .wait → s.kbdirq.inLoop inputTask = false
  order : s.came = s.taken ++ s.codes
  awake : s.codes ≠ [] → s.Awake inputTask

/-! ## Safety -/

section Safety

variable {inputTask ttyTask : α} {s s' : KbdState α} {sem : SemState α}

omit [DecidableEq α] in
theorem KbdStart.inv (h : KbdStart s) : KbdInv inputTask s where
  sem := h.kbdirq ▸ semInv_start 0
  fifo := by
    rw [h.kbdirq]
    have hinv : SemInv 0 (semStart 0 : SemState α) := semInv_start 0
    exact ⟨(Ring.window_eq_nil_iff hinv.ring.head_lt hinv.ring.tail_lt).2 rfl, fun _ => rfl⟩
  only t ht := by
    rw [h.kbdirq] at ht
    cases ht
  outside hpc := by
    rw [h.pc] at hpc
    cases hpc
  order := by rw [h.came, h.taken, h.codes]; rfl
  awake hne := absurd h.codes hne

omit [DecidableEq α] in
theorem KbdInv.room (h : KbdInv inputTask s) (e : SemEvent α) : RoomForWaiter s.kbdirq e :=
  h.sem.room_of_only h.only e

omit [DecidableEq α] in
/-- Whoever sleeps has found no resource, and none has come since. -/
theorem KbdInv.dry (h : KbdInv inputTask s) (hbl : s.kbdirq.mem.blocked inputTask = true) :
    ¬ 0 < s.kbdirq.mem.resource := by
  intro hpos
  have hmem := (h.sem.waiting inputTask).1 hbl
  rw [h.fifo.available hpos] at hmem
  cases hmem

/-- A signal leaves a resource, or wakes the task. -/
theorem KbdInv.signal (h : KbdInv inputTask s) (hst : SemStep s.kbdirq (.signal none) sem) :
    sem.inLoop = s.kbdirq.inLoop ∧
      (0 < sem.mem.resource ∨ sem.mem.blocked inputTask = false ∧
        s.kbdirq.mem.blocked inputTask = true) := by
  cases hst with
  | signal hcaller hs =>
      have hnonneg := h.sem.nonneg le_rfl
      rcases semSignal_cases hs with ⟨u, rfl, hne, -, hu, rfl⟩ | ⟨rfl, -, rfl⟩
      · obtain ⟨v, hv, hbl, -⟩ := h.sem.ring.handOver hne
        obtain rfl : u = v := Option.some.inj (hu.symm.trans hv)
        obtain rfl : u = inputTask := h.only u (h.sem.inLoop u hbl)
        have hself : Function.update s.kbdirq.mem.blocked u false u = false :=
          Function.update_self u false s.kbdirq.mem.blocked
        exact ⟨rfl, Or.inr ⟨hself, hbl⟩⟩
      · exact ⟨rfl, Or.inl (by simp only; omega)⟩

/-- Signals let the task go on as before. -/
theorem KbdInv.signalled (h : KbdInv inputTask s) (hst : SemStep s.kbdirq (.signal none) sem)
    (handlers : ℕ) : KbdInv inputTask { s with kbdirq := sem, handlers := handlers } := by
  obtain ⟨hin, hwoken⟩ := h.signal hst
  refine ⟨h.sem.step hst, h.fifo.step le_rfl h.sem (h.room _) hst, fun t ht => ?_, fun hpc => ?_,
    h.order, fun _ => ?_⟩
  · simp only [hin] at ht
    exact h.only t ht
  · simp only [hin]
    exact h.outside hpc
  · rcases hwoken with hpos | ⟨hbl, hblocked⟩
    · exact Or.inr (Or.inr (Or.inl hpos))
    · -- it was in the loop of `sem_wait`, so it will look
      refine Or.inr (Or.inr (Or.inr ⟨?_, hbl⟩))
      cases hpc : s.pc with
      | look => rfl
      | wait =>
          have hloop := h.sem.inLoop inputTask hblocked
          rw [h.outside hpc] at hloop
          cases hloop

/-- The call of `sem_wait`: it takes a resource, or something else is under way. -/
theorem KbdInv.called (h : KbdInv inputTask s) (hpc : s.pc = .wait)
    (hst : SemStep s.kbdirq (.wait inputTask) sem) :
    KbdInv inputTask { s with kbdirq := sem, pc := .look } := by
  have hsem := h.sem.step hst
  have hfifo := h.fifo.step le_rfl h.sem (h.room _) hst
  cases hst with
  | pass hin hw =>
      obtain ⟨hpos, rfl⟩ := semWait_pass hw
      refine ⟨hsem, hfifo, h.only, nofun, h.order, fun _ => ?_⟩
      exact Or.inr (Or.inr (Or.inr ⟨rfl, h.sem.blocked_of_not_inLoop hin⟩))
  | block hin hw =>
      obtain ⟨hres, rfl⟩ := semWait_block hw
      refine ⟨hsem, hfifo, fun t ht => ?_, nofun, h.order, fun hne => ?_⟩
      · by_cases hti : t = inputTask
        · exact hti
        · simp only [Function.update_of_ne hti] at ht
          exact h.only t ht
      · rcases h.awake hne with hirq | hpos | hpos | ⟨hlook, -⟩
        · exact Or.inl hirq
        · exact Or.inr (Or.inl hpos)
        · omega
        · rw [hpc] at hlook
          cases hlook

omit [DecidableEq α] in
/-- A byte is read; the one behind it is presented now. -/
theorem KbdInv.taken (h : KbdInv inputTask s) {code : UInt8} {codes : List UInt8}
    (hout : s.kbdirq.inLoop inputTask = false) (hcodes : s.codes = code :: codes) {kb : Keyboard}
    {input : InputState α} :
    KbdInv inputTask { s with
      codes := codes
      irq := s.irq || !codes.isEmpty
      pc := afterRead code
      keyboard := kb
      input := input
      taken := s.taken ++ [code] } := by
  refine ⟨h.sem, h.fifo, h.only, fun _ => hout, ?_, fun hne => ?_⟩
  · simp only [h.order, hcodes, List.append_assoc, List.singleton_append]
  · exact Or.inl (by simp only at hne; simp [hne])

theorem KbdInv.step (h : KbdInv inputTask s) {a : KbdAct} (hst : KbdStep inputTask ttyTask s a s') :
    KbdInv inputTask s' := by
  cases hst with
  | @press code =>
      refine ⟨h.sem, h.fifo, h.only, h.outside, ?_, fun _ => ?_⟩
      · simp only [h.order, List.append_assoc]
      · -- a byte behind others changes nothing
        by_cases hnil : s.codes = []
        · exact Or.inl (by simp [hnil])
        · rcases h.awake hnil with hirq | hrest
          · exact Or.inl (by simp [hirq])
          · exact Or.inr hrest
  | tick hst => exact h.signalled hst s.handlers
  | deliver hirq =>
      exact ⟨h.sem, h.fifo, h.only, h.outside, h.order, fun _ =>
        Or.inr (Or.inl (Nat.succ_pos _))⟩
  | notify hpos hst => exact h.signalled hst (s.handlers - 1)
  | quiet _ hout _ hcodes _ => exact h.taken hout hcodes
  | key _ hout hcodes _ _ => exact h.taken hout hcodes
  | empty _ hout _ hcodes =>
      exact ⟨h.sem, h.fifo, h.only, fun _ => hout, h.order, fun hne => absurd hcodes hne⟩
  | wait hpc _ hst => exact h.called hpc hst
  | leave hst =>
      have hsem := h.sem.step hst
      have hfifo := h.fifo.step le_rfl h.sem (h.room _) hst
      cases hst with
      | leave hin hbl =>
          refine ⟨hsem, hfifo, fun t ht => ?_, fun hpc => ?_, h.order, h.awake⟩
          · by_cases hti : t = inputTask
            · exact hti
            · simp only [Function.update_of_ne hti] at ht
              exact h.only t ht
          · exact Function.update_self _ _ _
  | idle _ _ _ | signal _ | ttyWait _ | ttyLeave _ | ttyPop _ =>
      exact ⟨h.sem, h.fifo, h.only, h.outside, h.order, h.awake⟩

end Safety

/-- No byte is lost or overtaken, and the task sleeps only while the controller is empty or an
interrupt is under way. -/
structure KbdSound (inputTask : α) (s : KbdState α) : Prop where
  order : s.came = s.taken ++ s.codes
  sleeps : s.kbdirq.mem.blocked inputTask = true → s.irq = false → s.handlers = 0 → s.codes = []

/-- In every run the keyboard task does not sleep over a key. -/
theorem kbdSound_of_run {inputTask ttyTask : α} {h : List (KbdState α × KbdAct)} {s : KbdState α}
    (hr : Run KbdStart (KbdStep inputTask ttyTask) h s) : AllStates (KbdSound inputTask) h s := by
  have hall := hr.invariant_all (I := KbdInv inputTask) (fun _ hs => hs.inv) fun _ _ _ hs hst =>
    hs.step hst
  have hsound : ∀ s : KbdState α, KbdInv inputTask s → KbdSound inputTask s := by
    intro s hs
    refine ⟨hs.order, fun hbl hirq hzero => ?_⟩
    by_contra hne
    rcases hs.awake hne with hirq' | hpos | hpos | ⟨-, hno⟩
    · rw [hirq] at hirq'
      cases hirq'
    · omega
    · exact hs.dry hbl hpos
    · rw [hbl] at hno
      cases hno
  exact ⟨fun p hp => hsound p.1 (hall.1 p hp), hsound s hall.2⟩

/-- The task waits on `sem_kbdirq`, and then the key A is pressed. -/
theorem pressedA_run : ∃ h s, Run KbdStart (KbdStep false true) h s ∧
    s.kbdirq.mem.blocked false = true ∧ s.came = [0x1e] ∧ s.taken = [] := by
  have h0 : Run KbdStart (KbdStep false true) [] ⟨[], false, 0, semStart 0, .look,
      ⟨0, (0, 0), (0, 0), (0, 0)⟩, inputInit fun _ => ⟨0, 0, 0⟩, [], []⟩ :=
    Run.start ⟨rfl, rfl, rfl, ⟨_, rfl⟩, rfl, rfl⟩
  have h1 := h0.snoc (KbdStep.empty rfl rfl rfl rfl)
  have h2 := h1.snoc (KbdStep.wait rfl rfl (SemStep.block rfl rfl))
  have h3 := h2.snoc (e := .press 0x1e) KbdStep.press
  exact ⟨_, _, h3, rfl, rfl, rfl⟩

theorem kbdSound_pressedA : ∃ h s, Run KbdStart (KbdStep false true) h s ∧
    s.kbdirq.mem.blocked false = true ∧ s.came = [0x1e] ∧ AllStates (KbdSound false) h s := by
  obtain ⟨h, s, hr, hbl, hcame, -⟩ := pressedA_run
  exact ⟨h, s, hr, hbl, hcame, kbdSound_of_run hr⟩

end OsLab
