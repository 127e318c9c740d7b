import OsLab.Common
import OsLab.Lib.Ring
import OsLab.Lib.Run

/-! # Semaphores (`sem.c`)

One semaphore and the tasks that use it. The parts of `sem_wait` and `sem_signal`
that run under `sem->lock` are functions on `SemMem`; everything else is the
`while(t->blocked) yield();` loop of `sem_wait`, in which a task stays until it
reads its flag as false. A step of the system is one critical section, or a task
leaving the loop. `resource` is an integer without bounds.

`SemState` adds ghost state: the blocked tasks in the order in which they began
to wait, and counters of what was called, granted and finished.
-/

namespace OsLab

open Trace

def SEM_CAPACITY : ℕ := 256

variable {α : Type*} [DecidableEq α]

/-- The fields of the semaphore and the `blocked` flags of the tasks. -/
structure SemMem (α : Type*) where
  resource : ℤ
  waitQueue : ℕ → Option α
  queueHead : ℕ
  queueTail : ℕ
  blocked : α → Bool

/-- `sem_init`; no task is blocked before. -/
def semInit (value : ℤ) : SemMem α where
  resource := value
  waitQueue := fun _ => none
  queueHead := 0
  queueTail := 0
  blocked := fun _ => false

/-- The critical section of `sem_wait`, called by task `t`: whether it took the fast path. -/
def semWait (t : α) (m : SemMem α) : Bool × SemMem α :=
  if m.resource > 0 then (true, { m with resource := m.resource - 1 })
  else
    (false, { m with
      blocked := Function.update m.blocked t true
      waitQueue := Function.update m.waitQueue m.queueTail (some t)
      queueTail := (m.queueTail + 1) % SEM_CAPACITY })

/-- The critical section of `sem_signal`: the task it hands over to, if any. `none` is a `NULL`
entry of the queue being dereferenced. -/
def semSignal (m : SemMem α) : Option (Option α × SemMem α) :=
  if m.queueHead ≠ m.queueTail ∧ m.resource = 0 then
    (m.waitQueue m.queueHead).map fun u =>
      (some u, { m with
        blocked := Function.update m.blocked u false
        queueHead := (m.queueHead + 1) % SEM_CAPACITY })
  else some (none, { m with resource := m.resource + 1 })

/-- The entries between `queue_head` and `queue_tail`. -/
def SemMem.entries (m : SemMem α) : List (Option α) :=
  Ring.window SEM_CAPACITY m.waitQueue m.queueHead m.queueTail

/-! ## The system -/

/-- The semaphore with its tasks. `inLoop` tells which tasks are in the loop of `sem_wait`; the
other fields are ghosts. -/
structure SemState (α : Type*) where
  mem : SemMem α
  inLoop : α → Bool
  /-- the blocked tasks, in the order in which they began to wait -/
  waiting : List α
  /-- per task: calls of `sem_wait`, grants, returns from `sem_wait`, calls of `sem_signal` -/
  called : α → ℕ
  granted : α → ℕ
  left : α → ℕ
  signalled : α → ℕ
  /-- in all: completed calls of `sem_signal`, and grants -/
  signals : ℕ
  grants : ℕ

/-- Task `t` enters `sem_wait`, task `t` leaves its loop, or `sem_signal` is called, by a task or
(`none`) by an interrupt handler. -/
inductive SemEvent (α : Type*)
  | wait (t : α)
  | leave (t : α)
  | signal (caller : Option α)

/-- One more for `t`. -/
def bump (f : α → ℕ) (t : α) : α → ℕ := Function.update f t (f t + 1)

/-- One more for the task, if there is one. -/
def bumpSome (f : α → ℕ) : Option α → α → ℕ
  | none => f
  | some t => bump f t

inductive SemStep : SemState α → SemEvent α → SemState α → Prop
  | pass {s : SemState α} {t : α} {m : SemMem α} :
      s.inLoop t = false → semWait t s.mem = (true, m) →
      SemStep s (.wait t) { s with
        mem := m
        called := bump s.called t
        granted := bump s.granted t
        left := bump s.left t
        grants := s.grants + 1 }
  | block {s : SemState α} {t : α} {m : SemMem α} :
      s.inLoop t = false → semWait t s.mem = (false, m) →
      SemStep s (.wait t) { s with
        mem := m
        inLoop := Function.update s.inLoop t true
        waiting := s.waiting ++ [t]
        called := bump s.called t }
  | leave {s : SemState α} {t : α} :
      s.inLoop t = true → s.mem.blocked t = false →
      SemStep s (.leave t) { s with
        inLoop := Function.update s.inLoop t false
        left := bump s.left t }
  | signal {s : SemState α} {caller popped : Option α} {m : SemMem α} :
      (∀ t ∈ caller, s.inLoop t = false) → semSignal s.mem = some (popped, m) →
      SemStep s (.signal caller) { s with
        mem := m
        waiting := s.waiting.filter fun t => decide (popped ≠ some t)
        granted := bumpSome s.granted popped
        signalled := bumpSome s.signalled caller
        signals := s.signals + 1
        grants := s.grants + popped.toList.length }

/-- After `sem_init`, before any call. -/
def semStart (value : ℤ) : SemState α where
  mem := semInit value
  inLoop := fun _ => false
  waiting := []
  called := fun _ => 0
  granted := fun _ => 0
  left := fun _ => 0
  signalled := fun _ => 0
  signals := 0
  grants := 0

def SemRun (value : ℤ) : List (SemState α × SemEvent α) → SemState α → Prop :=
  Run (fun s => s = semStart value) SemStep

end OsLab
