import OsLab.Common
import OsLab.Lib.PtrList
import OsLab.Lib.Run

/-! # Kernel threads (`kmt.c`)

A `task_t*` is an `Option α`: `none` is `NULL`, and as the code follows such a
pointer like any other, there is a `task_t` at `NULL` too (`task none`). A trap is
`kmt_context_save`, then the handlers of the devices, of which only the tasks they
wake by `sem_signal` matter here, then `kmt_schedule`; it is one step.
The lock of a task is taken and released within such a step and left out.

`context[i]` is only defined for `i` from 0 to 3: the functions answer `none` when
`i_nest` is not such an index. `nullDeref` is a ghost: it records that `NULL` was
dereferenced through `CUR_TASK` or `idle_tasks[cpu]`.
-/

namespace OsLab

open Trace

variable {α γ : Type*}

/-- The fields of `task_t` that the scheduler uses; `γ` is the type of saved contexts. -/
structure Task (α γ : Type*) where
  context : ℕ → γ
  iNest : ℤ
  blocked : Bool
  running : Bool
  next : Option α

/-- An index into `Context *context[4]`. -/
def contextIndex (iNest : ℤ) : Option ℕ :=
  if 0 ≤ iNest ∧ iNest < 4 then some iNest.toNat else none

/-- The globals of `kmt.c`, with the `CPU` structures of `cpu_vector` as functions of the CPU. -/
structure Kmt (α γ : Type*) where
  task : Option α → Task α γ
  taskList : Option α
  taskCount : ℕ
  idleTasks : ℕ → Option α
  currentTask : ℕ → Option α
  lastTask : ℕ → Option α
  nullDeref : Bool

namespace Kmt

/-- `CUR_TASK` or `last_task` of CPU `c` is the task `t`. -/
def OnCpu (k : Kmt α γ) (t : α) (c : ℕ) : Prop := k.currentTask c = some t ∨ k.lastTask c = some t

/-- Task `t` ran last on some CPU that has gone on to something else. -/
def Leaving (k : Kmt α γ) (t : α) : Prop := ∃ c, k.lastTask c = some t ∧ k.currentTask c ≠ some t

/-- `CUR_TASK = p` on `cpu`. -/
def setCurrent (k : Kmt α γ) (cpu : ℕ) (p : Option α) : Kmt α γ :=
  { k with currentTask := Function.update k.currentTask cpu p }

/-- `p->..` for a `p` from `CUR_TASK` or `idle_tasks[cpu]`. -/
def deref (k : Kmt α γ) (p : Option α) : Kmt α γ :=
  { k with nullDeref := k.nullDeref || p.isNone }

section Pointers

variable (k : Kmt α γ) (p : Option α) (cpu : ℕ)

@[simp] theorem setCurrent_task : (k.setCurrent cpu p).task = k.task := rfl
@[simp] theorem setCurrent_taskList : (k.setCurrent cpu p).taskList = k.taskList := rfl
@[simp] theorem setCurrent_taskCount : (k.setCurrent cpu p).taskCount = k.taskCount := rfl
@[simp] theorem setCurrent_idleTasks : (k.setCurrent cpu p).idleTasks = k.idleTasks := rfl
@[simp] theorem setCurrent_lastTask : (k.setCurrent cpu p).lastTask = k.lastTask := rfl
@[simp] theorem setCurrent_nullDeref : (k.setCurrent cpu p).nullDeref = k.nullDeref := rfl
@[simp] theorem setCurrent_self : (k.setCurrent cpu p).currentTask cpu = p :=
  Function.update_self _ _ _

@[simp] theorem deref_task : (k.deref p).task = k.task := rfl
@[simp] theorem deref_taskList : (k.deref p).taskList = k.taskList := rfl
@[simp] theorem deref_taskCount : (k.deref p).taskCount = k.taskCount := rfl
@[simp] theorem deref_idleTasks : (k.deref p).idleTasks = k.idleTasks := rfl
@[simp] theorem deref_currentTask : (k.deref p).currentTask = k.currentTask := rfl
@[simp] theorem deref_lastTask : (k.deref p).lastTask = k.lastTask := rfl

end Pointers

variable [DecidableEq α]

/-- Write to the fields of the task at `p`. -/
def setTask (k : Kmt α γ) (p : Option α) (f : Task α γ → Task α γ) : Kmt α γ :=
  { k with task := Function.update k.task p (f (k.task p)) }

section Fields

variable (k : Kmt α γ) (p : Option α) (f : Task α γ → Task α γ)

@[simp] theorem setTask_self : (k.setTask p f).task p = f (k.task p) := Function.update_self _ _ _
theorem setTask_of_ne {q : Option α} (h : q ≠ p) : (k.setTask p f).task q = k.task q :=
  Function.update_of_ne h _ _
theorem setTask_field {β : Type*} (g : Task α γ → β) (hg : g (f (k.task p)) = g (k.task p))
    (q : Option α) : g ((k.setTask p f).task q) = g (k.task q) := by
  by_cases hq : q = p
  · rw [hq, setTask_self, hg]
  · rw [setTask_of_ne _ _ _ hq]
@[simp] theorem setTask_taskList : (k.setTask p f).taskList = k.taskList := rfl
@[simp] theorem setTask_taskCount : (k.setTask p f).taskCount = k.taskCount := rfl
@[simp] theorem setTask_idleTasks : (k.setTask p f).idleTasks = k.idleTasks := rfl
@[simp] theorem setTask_currentTask : (k.setTask p f).currentTask = k.currentTask := rfl
@[simp] theorem setTask_lastTask : (k.setTask p f).lastTask = k.lastTask := rfl
@[simp] theorem setTask_nullDeref : (k.setTask p f).nullDeref = k.nullDeref := rfl

end Fields

end Kmt

variable [DecidableEq α]

/-! ## Traps -/

/-- The first part of `kmt_context_save`: the context goes into `CUR_TASK`. -/
def saveContext (cpu : ℕ) (ctx : γ) (k : Kmt α γ) : Option (Kmt α γ) :=
  let cur := k.currentTask cpu
  let k := k.deref cur
  if cur = k.idleTasks cpu then
    some (k.setTask cur fun t => { t with context := Function.update t.context 0 ctx })
  else
    (contextIndex (k.task cur).iNest).map fun i =>
      k.setTask cur fun t =>
        { t with context := Function.update t.context i ctx, iNest := t.iNest + 1 }

/-- The second part of `kmt_context_save`: the task that ran before is released. -/
def releaseLast (cpu : ℕ) (k : Kmt α γ) : Kmt α γ :=
  let last := k.lastTask cpu
  let k :=
    if last ≠ none ∧ last ≠ k.idleTasks cpu ∧ last ≠ k.currentTask cpu then
      k.setTask last fun t => { t with running := false, iNest := t.iNest - 1 }
    else k
  { k with lastTask := Function.update k.lastTask cpu (k.currentTask cpu) }

/-- `kmt_context_save`. -/
def kmtContextSave (cpu : ℕ) (ctx : γ) (k : Kmt α γ) : Option (Kmt α γ) :=
  (saveContext cpu ctx k).map (releaseLast cpu)

/-- The task that the loop of `kmt_schedule` looks at after `p`. -/
def nextTask (k : Kmt α γ) (p : Option α) : Option α :=
  if (k.task p).next ≠ none then (k.task p).next else k.taskList

/-- `kmt_schedule` goes on with `CUR_TASK`. -/
def resumeCurrent (t : Option α) (k : Kmt α γ) : Option (γ × Kmt α γ) :=
  let k := k.setTask t fun t => { t with iNest := t.iNest - 1 }
  (contextIndex (k.task t).iNest).map fun i => ((k.task t).context i, k)

/-- `kmt_schedule` goes on with another task. -/
def switchTo (cpu : ℕ) (t : Option α) (k : Kmt α γ) : Option (γ × Kmt α γ) :=
  let k := (k.setTask t fun t => { t with running := true }).setCurrent cpu t
  (contextIndex (k.task t).iNest).map fun i => ((k.task t).context i, k)

/-- `kmt_schedule` falls back to idle. -/
def switchToIdle (cpu : ℕ) (k : Kmt α γ) : γ × Kmt α γ :=
  let idle := k.idleTasks cpu
  let k := (k.setCurrent cpu idle).deref idle
  ((k.task idle).context 0, k)

/-- The loop of `kmt_schedule`, `n` rounds from task `p` on. -/
def pollTasks (cpu : ℕ) : ℕ → Option α → Kmt α γ → Option (γ × Kmt α γ)
  | 0, _, k => some (switchToIdle cpu k)
  | n + 1, p, k =>
      let t := nextTask k p
      if t = k.currentTask cpu then
        if (k.task t).blocked then pollTasks cpu n t k
        else resumeCurrent t k
      else if (k.task t).running || (k.task t).blocked then pollTasks cpu n t k
      else switchTo cpu t k

/-- `kmt_schedule`: the context it returns and the state afterwards. -/
def kmtSchedule (cpu : ℕ) (k : Kmt α γ) : Option (γ × Kmt α γ) :=
  let k := if k.currentTask cpu = none then k.setCurrent cpu (k.idleTasks cpu) else k
  let t := k.currentTask cpu
  pollTasks cpu (k.taskCount * 2 + 2) t (k.deref t)

/-- `t->blocked = false` for the tasks that the handlers between the two wake up. -/
def wakeAll (wakes : List (Option α)) (k : Kmt α γ) : Kmt α γ :=
  wakes.foldl (fun k p => k.setTask p fun t => { t with blocked := false }) k

/-- A trap on `cpu` with the context `ctx` of what it interrupts. -/
def trap (cpu : ℕ) (ctx : γ) (wakes : List (Option α)) (k : Kmt α γ) : Option (γ × Kmt α γ) :=
  (kmtContextSave cpu ctx k).bind fun k => kmtSchedule cpu (wakeAll wakes k)

/-! ## Tasks -/

/-- `create`, with the context that `kcontext` makes. -/
def create (task : α) (kctx : γ) (k : Kmt α γ) : Kmt α γ :=
  let k := k.setTask (some task) fun t =>
    { t with
      context := Function.update t.context 0 kctx
      blocked := false
      running := false
      iNest := 0
      next := k.taskList }
  { k with taskCount := k.taskCount + 1, taskList := some task }

/-- `t->blocked = b`, by `sem_wait` or `sem_signal`. -/
def setBlocked (p : Option α) (b : Bool) (k : Kmt α γ) : Kmt α γ :=
  k.setTask p fun t => { t with blocked := b }

/-! ## Initialisation -/

/-- `init_cpu(&cpu_vector[cpu])`. -/
def initCpu (cpu : ℕ) (k : Kmt α γ) : Kmt α γ :=
  { k with
    currentTask := Function.update k.currentTask cpu none
    lastTask := Function.update k.lastTask cpu none }

/-- `init_idle_task(idle)`, where `pmm->alloc` answers `fresh`: the parameter is overwritten with
it, so what the caller passed is neither read nor written. -/
def initIdleTask (_idle : Option α) (fresh : α) (kctx : γ) (k : Kmt α γ) : Kmt α γ :=
  let idle := some fresh
  k.setTask idle fun t =>
    { t with
      context := Function.update t.context 0 kctx
      blocked := false
      running := false
      iNest := 0
      next := none }

/-- `kmt_init` for `n` CPUs; `fresh` and `kctx` are the answers of `pmm->alloc` and `kcontext`. -/
def kmtInit (fresh : ℕ → α) (kctx : ℕ → γ) (n : ℕ) (k : Kmt α γ) : Kmt α γ :=
  let k := (List.range n).foldl
    (fun k i => initIdleTask (k.idleTasks i) (fresh i) (kctx i) (initCpu i k)) k
  { k with taskCount := 0, taskList := none }

/-- The globals before `kmt_init` are zero; memory holds anything. -/
def kmtBoot (mem : Option α → Task α γ) : Kmt α γ where
  task := mem
  taskList := none
  taskCount := 0
  idleTasks := fun _ => none
  currentTask := fun _ => none
  lastTask := fun _ => none
  nullDeref := false

end OsLab
