import OsLab.Common
import OsLab.Lib.Run

/-! # Spinlocks and the interrupt flag (`spinlock.c`, `os.c`, `pmm.c`)

`spin_lock` turns interrupts off before it takes the lock, and `spin_unlock` turns
them on again behind the outermost one: every CPU counts the spinlocks in
`i_nest_num` and keeps in `i_enable` the flag it found. `kalloc` and `kfree` keep
the flag in a variable of their own.

What runs is a *context*: a task or a handler, with the place it is at. A trap saves the
context that runs on a CPU, with the interrupt flag, and starts a handler; the
handler's return takes up any saved context, on whichever CPU it is. Interrupts come
between any two steps of an operation, as long as the flag is set.

How many spinlocks a context has is counted where it calls `spin_lock` and where
`spin_unlock` returns; what the functions do in between is `opStep`, which knows
nothing of that count.

The functions are those of a build without `DEBUG`. `slab_alloc`, `slab_free` and
`page_free` use `_lock` and `_unlock` only, and leave the flag and the count alone.
-/

namespace OsLab

open Trace

/-- The fields of `CPU` that belong to the spinlocks, and the interrupt flag of the processor. -/
structure NestCpu where
  iNestNum : ℤ
  iEnable : Bool
  intr : Bool

section Model

-- the CPUs, the places where contexts are saved, and the spinlocks
variable {κ ι L : Type*}

/-- The next statement of a context. -/
inductive SpinPc (L : Type*)
  /-- between two operations -/
  | idle
  /-- `interrupt_off`: `bool old_status = ienabled();` -/
  | readFlag (lk : L)
  /-- `iset(false);` -/
  | maskFlag (lk : L) (old : Bool)
  /-- `if(CUR_CPU.i_nest_num == 0){ CUR_CPU.i_enable = old_status; }` -/
  | saveFlag (lk : L) (old : Bool)
  /-- `CUR_CPU.i_nest_num += 1;` -/
  | nest (lk : L)
  /-- `spin_lock`: `_lock(&(lk->lock));` -/
  | spin (lk : L)
  /-- `spin_unlock`: `_unlock(&(lk->lock));` -/
  | release (lk : L)
  /-- `interrupt_on`: `if(ienabled()){ return; }` -/
  | checkFlag
  /-- `if(CUR_CPU.i_nest_num <= 0){ return; }` -/
  | checkNest
  /-- `CUR_CPU.i_nest_num --;` -/
  | unnest
  /-- `if(CUR_CPU.i_nest_num == 0 && CUR_CPU.i_enable){ iset(true); }` -/
  | restoreFlag
  /-- `kalloc`, `kfree`: `bool itrpt_able = ienabled();` -/
  | pmmRead
  /-- `iset(false);` -/
  | pmmMask (old : Bool)
  /-- `slab_alloc`, or `page_free` or `slab_free` -/
  | pmmBody (old : Bool)
  /-- `if(itrpt_able) { iset(true); }` -/
  | pmmRestore (old : Bool)

inductive SpinOp (L : Type*)
  | spinLock (lk : L)
  | spinUnlock (lk : L)
  | kalloc
  | kfree

/-- A task or a handler. -/
structure SpinCtx (L : Type*) where
  pc : SpinPc L
  /-- the operation under way -/
  op : Option (SpinOp L)
  handler : Bool
  /-- ghost: how often it has called `spin_lock`, less the returns from `spin_unlock` -/
  depth : ℕ
  /-- ghost: the interrupt flag just before its outermost `spin_lock`; before the first one, the
  flag it started with -/
  before : Bool

/-- A context that has not done anything. -/
def SpinCtx.fresh (handler flag : Bool) : SpinCtx L := ⟨.idle, none, handler, 0, flag⟩

/-- The call of an operation, on a CPU with interrupt flag `intr`. -/
def SpinCtx.call (intr : Bool) (op : SpinOp L) (x : SpinCtx L) : SpinCtx L :=
  match op with
  | .spinLock lk =>
      { x with
        pc := .readFlag lk
        op := some op
        depth := x.depth + 1
        before := if x.depth = 0 then intr else x.before }
  | .spinUnlock lk => { x with pc := .release lk, op := some op }
  | .kalloc => { x with pc := .pmmRead, op := some op }
  | .kfree => { x with pc := .pmmRead, op := some op }

/-- The operation returns. -/
def SpinCtx.ret (x : SpinCtx L) : SpinCtx L :=
  match x.op with
  | some (.spinUnlock _) => { x with pc := .idle, op := none, depth := x.depth - 1 }
  | _ => { x with pc := .idle, op := none }

/-- The context goes to another statement, or its operation returns. -/
def SpinCtx.goTo (x : SpinCtx L) : SpinPc L → SpinCtx L
  | .idle => x.ret
  | pc => { x with pc := pc }

/-- The number of spinlocks a context holds or spins on: in `interrupt_off` the lock is not yet
asked for, and in `interrupt_on` it is given back. -/
def SpinCtx.held (x : SpinCtx L) : ℕ :=
  match x.pc with
  | .readFlag _ | .maskFlag _ _ | .saveFlag _ _ | .nest _ => x.depth - 1
  | .checkFlag | .checkNest | .unnest | .restoreFlag => x.depth - 1
  | _ => x.depth

/-- The statement of an operation, on the CPU where the context runs: what it does, and the next
one. `none` between two operations, and while `_lock` spins. -/
def opStep [DecidableEq L] (cpu : NestCpu) (word : L → ℕ) :
    SpinPc L → Option (NestCpu × (L → ℕ) × SpinPc L)
  | .idle => none
  | .readFlag lk => some (cpu, word, .maskFlag lk cpu.intr)
  | .maskFlag lk old => some ({ cpu with intr := false }, word, .saveFlag lk old)
  | .saveFlag lk old =>
      some ({ cpu with iEnable := if cpu.iNestNum = 0 then old else cpu.iEnable }, word, .nest lk)
  | .nest lk => some ({ cpu with iNestNum := cpu.iNestNum + 1 }, word, .spin lk)
  | .spin lk => (lock (word lk)).map fun w => (cpu, Function.update word lk w, .idle)
  | .release lk => some (cpu, Function.update word lk unlock, .checkFlag)
  | .checkFlag => some (cpu, word, if cpu.intr then .idle else .checkNest)
  | .checkNest => some (cpu, word, if cpu.iNestNum ≤ 0 then .idle else .unnest)
  | .unnest => some ({ cpu with iNestNum := cpu.iNestNum - 1 }, word, .restoreFlag)
  | .restoreFlag =>
      some ({ cpu with intr := if cpu.iNestNum = 0 ∧ cpu.iEnable then true else cpu.intr }, word,
        .idle)
  | .pmmRead => some (cpu, word, .pmmMask cpu.intr)
  | .pmmMask old => some ({ cpu with intr := false }, word, .pmmBody old)
  | .pmmBody old => some (cpu, word, .pmmRestore old)
  | .pmmRestore old => some ({ cpu with intr := if old then true else cpu.intr }, word, .idle)

structure SpinState (κ ι L : Type*) where
  cpu : κ → NestCpu
  /-- what runs on a CPU -/
  ctx : κ → SpinCtx L
  /-- the saved contexts, each with its interrupt flag -/
  saved : ι → Option (SpinCtx L × Bool)
  /-- the words of the spinlocks -/
  word : L → ℕ

inductive SpinEvent (κ ι L : Type*)
  | call (c : κ) (op : SpinOp L)
  | step (c : κ)
  | trap (c : κ) (i : ι)
  | ret (c : κ) (i : ι)

variable [DecidableEq κ] [DecidableEq ι] [DecidableEq L]

inductive SpinStep : SpinState κ ι L → SpinEvent κ ι L → SpinState κ ι L → Prop
  /-- An operation is called. Nobody unlocks more often than it locked. -/
  | call {s : SpinState κ ι L} {c : κ} {op : SpinOp L} : (s.ctx c).pc = .idle →
      (∀ lk, op = .spinUnlock lk → 0 < (s.ctx c).depth) →
      SpinStep s (.call c op)
        { s with ctx := Function.update s.ctx c ((s.ctx c).call (s.cpu c).intr op) }
  | step {s : SpinState κ ι L} {c : κ} {cpu : NestCpu} {word : L → ℕ} {pc : SpinPc L} :
      opStep (s.cpu c) s.word (s.ctx c).pc = some (cpu, word, pc) →
      SpinStep s (.step c)
        { s with
          cpu := Function.update s.cpu c cpu
          ctx := Function.update s.ctx c ((s.ctx c).goTo pc)
          word := word }
  /-- An interrupt, or a `yield` outside any spinlock. The handler starts with interrupts off. -/
  | trap {s : SpinState κ ι L} {c : κ} {i : ι} :
      (s.cpu c).intr = true ∨ ((s.ctx c).pc = .idle ∧ (s.ctx c).depth = 0) → s.saved i = none →
      SpinStep s (.trap c i)
        { s with
          cpu := Function.update s.cpu c { s.cpu c with intr := false }
          ctx := Function.update s.ctx c (.fresh true false)
          saved := Function.update s.saved i (some (s.ctx c, (s.cpu c).intr)) }
  /-- A handler that has released its locks returns, to any saved context. -/
  | ret {s : SpinState κ ι L} {c : κ} {i : ι} {x : SpinCtx L} {flag : Bool} :
      (s.ctx c).handler = true → (s.ctx c).pc = .idle → (s.ctx c).depth = 0 →
      s.saved i = some (x, flag) →
      SpinStep s (.ret c i)
        { s with
          cpu := Function.update s.cpu c { s.cpu c with intr := flag }
          ctx := Function.update s.ctx c x
          saved := Function.update s.saved i none }

/-- The state after `kmt_init`, with any tasks created. -/
def SpinStart (s : SpinState κ ι L) : Prop :=
  (∀ c, (s.cpu c).iNestNum = 0 ∧ (s.cpu c).iEnable = true ∧
    s.ctx c = .fresh false (s.cpu c).intr) ∧
  (∀ i x flag, s.saved i = some (x, flag) → x = .fresh false flag) ∧
  ∀ lk, s.word lk = spinLockInit

def SpinRun : List (SpinState κ ι L × SpinEvent κ ι L) → SpinState κ ι L → Prop :=
  Run SpinStart SpinStep

end Model

end OsLab
