import OsLab.Kmt.Sched
import OsLab.Sem.Inv

/-! # Tasks, semaphores and `teardown`

The scheduler of `OsLab.Kmt.Sched` together with any number of semaphores (the
`blocked` flags are those of the tasks) and with `teardown`, which gives the memory
of a task back. A trap comes with the semaphores that its handlers signal. The
memory of a task that was torn down may be written by its next owner at any time
(`reuse`), or become a task again by `create`.
-/

namespace OsLab

open Trace PtrList

variable {ι α γ : Type*}

def MAX_CPU : ℕ := 8

/-! ## Semaphores of tasks -/

/-- The fields of `sem_t`. -/
structure Sem (α : Type*) where
  resource : ℤ
  waitQueue : ℕ → Option α
  queueHead : ℕ
  queueTail : ℕ

/-- `sem_init`. -/
def Sem.init (value : ℤ) : Sem α := ⟨value, fun _ => none, 0, 0⟩

/-- The entries between `queue_head` and `queue_tail`. -/
def Sem.entries (q : Sem α) : List (Option α) :=
  Ring.window SEM_CAPACITY q.waitQueue q.queueHead q.queueTail

/-- The semaphore with the flags of the tasks, as in `OsLab.Sem.Basic`. -/
def Sem.mem (q : Sem α) (k : Kmt α γ) : SemMem α :=
  ⟨q.resource, q.waitQueue, q.queueHead, q.queueTail, fun t => (k.task (some t)).blocked⟩

variable [DecidableEq α]

/-- The critical section of `sem_wait`, where `CUR_TASK` is `t`. -/
def Sem.wait (t : Option α) (q : Sem α) (k : Kmt α γ) : Sem α × Kmt α γ :=
  if q.resource > 0 then ({ q with resource := q.resource - 1 }, k)
  else
    ({ q with
      waitQueue := Function.update q.waitQueue q.queueTail t
      queueTail := (q.queueTail + 1) % SEM_CAPACITY }, setBlocked t true k)

/-- The critical section of `sem_signal`. -/
def Sem.signal (q : Sem α) (k : Kmt α γ) : Sem α × Kmt α γ :=
  if q.queueHead ≠ q.queueTail ∧ q.resource = 0 then
    ({ q with queueHead := (q.queueHead + 1) % SEM_CAPACITY },
      setBlocked (q.waitQueue q.queueHead) false k)
  else ({ q with resource := q.resource + 1 }, k)

/-- `sem_signal` on one semaphore after the other. -/
def signalAll [DecidableEq ι] : List ι → (ι → Sem α) → Kmt α γ → (ι → Sem α) × Kmt α γ
  | [], q, k => (q, k)
  | i :: is, q, k =>
      let r := (q i).signal k
      signalAll is (Function.update q i r.1) r.2

/-! ## `teardown` -/

/-- The loop of `teardown` at `t`; `none` when `fuel` rounds are not enough. -/
def unlinkTask (task : Option α) : ℕ → Option α → Kmt α γ → Option (Kmt α γ)
  | 0, _, _ => none
  | fuel + 1, t, k =>
      if t = none then some k
      else if (k.task t).next = task then
        some (k.setTask t fun x => { x with next := (k.task task).next })
      else unlinkTask task fuel (k.task t).next k

/-- The check at the start of `teardown`. -/
def Kmt.isIdle (k : Kmt α γ) (task : Option α) : Bool :=
  (List.range MAX_CPU).any fun i => decide (task = k.idleTasks i)

/-- `teardown`, up to `pmm->free`. -/
def teardown (fuel : ℕ) (task : Option α) (k : Kmt α γ) : Option (Kmt α γ) :=
  if k.isIdle task then some k
  else
    (if task = k.taskList then some { k with taskList := (k.task k.taskList).next }
      else unlinkTask task fuel k.taskList k).map fun k =>
        { k with taskCount := k.taskCount - 1 }

/-! ## The system -/

/-- The machine; `tasks` and `freed` are ghosts. -/
structure TaskState (ι α γ : Type*) where
  kmt : Kmt α γ
  sems : ι → Sem α
  /-- the tasks that were created and not torn down since -/
  tasks : List α
  /-- the tasks that were torn down and not created since -/
  freed : List α

inductive TaskEvent (ι α γ : Type*)
  | trap (cpu : ℕ) (ctx : γ) (signals : List ι) (answer : γ)
  | create (t : α) (kctx : γ)
  | wait (cpu : ℕ) (i : ι)
  | signal (i : ι)
  | teardown (t : α)
  | reuse (t : α) (x : Task α γ)

/-- The memory at `t` gets a new owner, or is written by it. -/
def TaskEvent.Gives (t : α) : TaskEvent ι α γ → Prop
  | .create u _ => u = t
  | .reuse u _ => u = t
  | _ => False

/-- The memory at `t` holds `x`. -/
def Kmt.poke (k : Kmt α γ) (t : α) (x : Task α γ) : Kmt α γ := k.setTask (some t) fun _ => x

def TaskState.poke (s : TaskState ι α γ) (t : α) (x : Task α γ) : TaskState ι α γ :=
  { s with kmt := s.kmt.poke t x }

variable [DecidableEq ι]

/-- The steps of a machine with `n` CPUs. -/
inductive TaskStep (n : ℕ) : TaskState ι α γ → TaskEvent ι α γ → TaskState ι α γ → Prop
  | trap {s : TaskState ι α γ} {cpu : ℕ} {ctx answer : γ} {signals : List ι} {k k' : Kmt α γ} :
      cpu < n → kmtContextSave cpu ctx s.kmt = some k →
      kmtSchedule cpu (signalAll signals s.sems k).2 = some (answer, k') →
      TaskStep n s (.trap cpu ctx signals answer)
        { s with kmt := k', sems := (signalAll signals s.sems k).1 }
  | create {s : TaskState ι α γ} {t : α} {kctx : γ} :
      t ∉ s.tasks →
      TaskStep n s (.create t kctx)
        ⟨create t kctx s.kmt, s.sems, t :: s.tasks, s.freed.filter fun u => decide (u ≠ t)⟩
  | wait {s : TaskState ι α γ} {cpu : ℕ} {i : ι} {t : α} :
      cpu < n → s.kmt.currentTask cpu = some t → (s.kmt.task (some t)).blocked = false →
      TaskStep n s (.wait cpu i)
        { s with
          sems := Function.update s.sems i ((s.sems i).wait (some t) s.kmt).1
          kmt := ((s.sems i).wait (some t) s.kmt).2 }
  | signal {s : TaskState ι α γ} {i : ι} :
      TaskStep n s (.signal i)
        { s with
          sems := Function.update s.sems i ((s.sems i).signal s.kmt).1
          kmt := ((s.sems i).signal s.kmt).2 }
  | teardown {s : TaskState ι α γ} {t : α} {k : Kmt α γ} {fuel : ℕ} :
      t ∈ s.tasks → s.kmt.isIdle (some t) = false → teardown fuel (some t) s.kmt = some k →
      TaskStep n s (.teardown t) ⟨k, s.sems, s.tasks.erase t, t :: s.freed⟩
  | reuse {s : TaskState ι α γ} {t : α} {x : Task α γ} :
      t ∈ s.freed → TaskStep n s (.reuse t x) (s.poke t x)

/-- The state that `kmt_init` and `sem_init` leave. -/
inductive TaskStart (n : ℕ) (idleCtx : ℕ → γ) (value : ι → ℤ) : TaskState ι α γ → Prop
  | init {s : KmtState α γ} : KmtStart n idleCtx s →
      TaskStart n idleCtx value ⟨s.kmt, fun i => Sem.init (value i), [], []⟩

/-- Runs of a machine with `n` CPUs. -/
def TaskRun (n : ℕ) (idleCtx : ℕ → γ) (value : ι → ℤ) :
    List (TaskState ι α γ × TaskEvent ι α γ) → TaskState ι α γ → Prop :=
  Run (TaskStart n idleCtx value) (TaskStep n)

/-! ## The critical sections, as in `OsLab.Sem.Basic` -/

section Sections

variable (q : Sem α) (k : Kmt α γ) (t : α)

omit [DecidableEq ι] in
theorem setBlocked_blocked (p : Option α) (b : Bool) (u : α) :
    ((setBlocked p b k).task (some u)).blocked =
      if p = some u then b else (k.task (some u)).blocked := by
  unfold setBlocked
  by_cases hp : p = some u
  · rw [if_pos hp, ← hp, Kmt.setTask_self]
  · rw [if_neg hp, Kmt.setTask_of_ne _ _ _ (Ne.symm hp)]

omit [DecidableEq ι] in
theorem Sem.mem_setBlocked (b : Bool) : q.mem (setBlocked (some t) b k) =
    { q.mem k with blocked := Function.update (q.mem k).blocked t b } := by
  unfold Sem.mem
  congr 1
  funext u
  rw [setBlocked_blocked]
  by_cases hu : t = u
  · subst hu
    rw [if_pos rfl, Function.update_self]
  · rw [if_neg fun he => hu (Option.some.inj he), Function.update_of_ne (Ne.symm hu)]

omit [DecidableEq ι] in
theorem Sem.wait_mem : semWait t (q.mem k) =
    (decide (q.resource > 0), (q.wait (some t) k).1.mem (q.wait (some t) k).2) := by
  unfold semWait Sem.wait
  by_cases hpos : q.resource > 0
  · rw [if_pos (show (q.mem k).resource > 0 from hpos), if_pos hpos, decide_eq_true hpos]
    rfl
  · rw [if_neg (show ¬ (q.mem k).resource > 0 from hpos), if_neg hpos, decide_eq_false hpos]
    simp only [Sem.mem_setBlocked]
    rfl

omit [DecidableEq ι] in
theorem Sem.signal_mem {u : α} (hne : q.queueHead ≠ q.queueTail) (hzero : q.resource = 0)
    (hu : q.waitQueue q.queueHead = some u) :
    semSignal (q.mem k) = some (some u, (q.signal k).1.mem (q.signal k).2) := by
  unfold semSignal Sem.signal
  have hc : q.queueHead ≠ q.queueTail ∧ q.resource = 0 := ⟨hne, hzero⟩
  rw [if_pos (show (q.mem k).queueHead ≠ (q.mem k).queueTail ∧ (q.mem k).resource = 0 from hc),
    if_pos hc, hu, show (q.mem k).waitQueue (q.mem k).queueHead = some u from hu]
  simp only [Sem.mem_setBlocked]
  rfl

end Sections

end OsLab
