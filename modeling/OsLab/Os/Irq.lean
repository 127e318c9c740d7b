import OsLab.Lib.PtrList
import OsLab.Lib.StableSort
import Mathlib.Data.List.ReduceOption

/-! # Interrupt handlers (`os.c`)

`on_irq` keeps the registrations in a linked list that is sorted by `seq`, and `trap`
walks over it. An `IRQ*` that is not `NULL` is an `α`; `pmm->alloc` succeeds, and its
answer is a parameter. The contexts are `γ`, what the handlers work on is `ω`: they
neither read nor write the list. The loops take fuel, and answer `none` without.
The build is the default one, without `DEBUG`.
-/

namespace OsLab

namespace Os

open PtrList StableSort

variable {α γ ω : Type*}

/-! ## Data -/

/-- `SEQ_MIN`. -/
def SEQ_MIN : Int32 := (1 : Int32) <<< 31

/-- `SEQ_MAX`. -/
def SEQ_MAX : Int32 := ~~~((1 : Int32) <<< 31)

/-- The type of the field `event` of `Event`. -/
inductive EventType
  | null | yield | syscall | pagefault | error | irqTimer | irqIodev
deriving DecidableEq, Repr

/-- Its values as `int`. -/
def EventType.toInt32 : EventType → Int32
  | .null => 0
  | .yield => 1
  | .syscall => 2
  | .pagefault => 3
  | .error => 4
  | .irqTimer => 5
  | .irqIodev => 6

def EVENT_NULL : Int32 := EventType.null.toInt32

/-- `Event`; `msg` is a pointer. -/
structure Event where
  event : EventType
  cause : ℕ
  ref : ℕ
  msg : ℕ

/-- `handler_t`: a `Context*` is an `Option γ`. -/
abbrev Handler (γ ω : Type*) := Event → Option γ → ω → Option γ × ω

/-- What `on_irq` is called with. -/
structure Request (γ ω : Type*) where
  seq : Int32
  event : Int32
  handler : Handler γ ω

/-- `IRQ`. -/
structure Irq (α γ ω : Type*) extends Request γ ω where
  next : Option α

/-- `irq_list` and the memory of its nodes. -/
structure IrqSys (α γ ω : Type*) where
  irqList : Option α
  irq : α → Irq α γ ω

namespace IrqSys

/-- The links. -/
def next (σ : IrqSys α γ ω) (p : α) : Option α := (σ.irq p).next

/-- What a node was registered with. -/
def request (σ : IrqSys α γ ω) (p : α) : Request γ ω := (σ.irq p).toRequest

variable [DecidableEq α]

/-- `*p = irq`. -/
def write (σ : IrqSys α γ ω) (p : α) (irq : Irq α γ ω) : IrqSys α γ ω :=
  { σ with irq := Function.update σ.irq p irq }

/-- `p->next = q`. -/
def setNext (σ : IrqSys α γ ω) (p : α) (q : Option α) : IrqSys α γ ω :=
  σ.write p { σ.irq p with next := q }

end IrqSys

/-! ## `on_irq` -/

section Functions

variable [DecidableEq α]

/-- The loop of `on_irq`, at `i_req`; `new` is `_irq`. -/
def insertIrq (new : α) : ℕ → α → IrqSys α γ ω → Option (IrqSys α γ ω)
  | 0, _, _ => none
  | fuel + 1, iReq, σ =>
      match (σ.irq iReq).next with
      | none => some (σ.setNext iReq (some new))
      | some n =>
          if (σ.irq new).seq < (σ.irq n).seq then
            some ((σ.setNext new (some n)).setNext iReq (some new))
          else insertIrq new fuel n σ

/-- The part of `on_irq` behind the first five lines, which fill in `_irq`. -/
def linkIrq (fuel : ℕ) (new : α) (σ : IrqSys α γ ω) : Option (IrqSys α γ ω) :=
  match σ.irqList with
  | none => some { σ with irqList := some new }
  | some head =>
      if (σ.irq new).seq < (σ.irq head).seq then
        some { σ.setNext new (some head) with irqList := some new }
      else insertIrq new fuel head σ

/-- `on_irq`, where `pmm->alloc` answers `new`. -/
def onIrq (fuel : ℕ) (new : α) (seq event : Int32) (handler : Handler γ ω) (σ : IrqSys α γ ω) :
    Option (IrqSys α γ ω) :=
  linkIrq fuel new (σ.write new ⟨⟨seq, event, handler⟩, none⟩)

/-- One call of `on_irq` after the other, with the answers of `pmm->alloc`. -/
def registerAll (fuel : ℕ) : List (α × Request γ ω) → IrqSys α γ ω → Option (IrqSys α γ ω)
  | [], σ => some σ
  | (p, r) :: rs, σ =>
      (onIrq fuel p r.seq r.event r.handler σ).bind fun σ => registerAll fuel rs σ

end Functions

/-! ## `trap` -/

/-- `req->event == EVENT_NULL || req->event == ev.event`. -/
def Wanted (ev : Event) (r : Request γ ω) : Prop :=
  r.event = EVENT_NULL ∨ r.event = ev.event.toInt32

instance (ev : Event) (r : Request γ ω) : Decidable (Wanted ev r) :=
  inferInstanceAs (Decidable (_ ∨ _))

/-- The loop of `trap`, at `req`. -/
def trapFrom (ev : Event) (ctx : Option γ) (σ : IrqSys α γ ω) :
    ℕ → Option α → Option γ → ω → Option (Option γ × ω)
  | _, none, nextCtx, w => some (nextCtx, w)
  | 0, some _, _, _ => none
  | fuel + 1, some req, nextCtx, w =>
      if Wanted ev (σ.irq req).toRequest then
        let r := (σ.irq req).handler ev ctx w
        trapFrom ev ctx σ fuel (σ.irq req).next (if r.1 ≠ none then r.1 else nextCtx) r.2
      else trapFrom ev ctx σ fuel (σ.irq req).next nextCtx w

/-- `trap`. -/
def trap (fuel : ℕ) (ev : Event) (ctx : Option γ) (σ : IrqSys α γ ω) (w : ω) :
    Option (Option γ × ω) :=
  if σ.irqList = none then some (none, w) else trapFrom ev ctx σ fuel σ.irqList none w

/-! ## What they are for -/

/-- The key of the list. -/
def Request.key (r : Request γ ω) : ℤ := r.seq.toInt

/-- The registrations that a trap for `ev` calls, in order. -/
def called (ev : Event) (rs : List (Request γ ω)) : List (Request γ ω) :=
  (rs.mergeSort (byKey Request.key)).filter fun r => decide (Wanted ev r)

/-- One handler after the other, each with `ctx`: their answers, and what they leave. -/
def callAll (ev : Event) (ctx : Option γ) : List (Request γ ω) → ω → List (Option γ) × ω
  | [], w => ([], w)
  | r :: rs, w =>
      let a := r.handler ev ctx w
      let rest := callAll ev ctx rs a.2
      (a.1 :: rest.1, rest.2)

/-- The last answer that is not `NULL`. -/
def lastAnswer (answers : List (Option γ)) : Option γ := answers.reduceOption.getLast?

end Os

end OsLab
