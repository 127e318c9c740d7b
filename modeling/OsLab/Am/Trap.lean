import Mathlib.Data.Nat.Bitwise
import OsLab.Lib.WordStack
import OsLab.Os.Irq

/-! # Interrupts and contexts (`cte.c`, `trap64.S`)

The code is the one for x86-64. Words of 64 bits are natural numbers, and the memory is read and
written a word at a time, by the address of the word; the stack pointer does not go below 0, so
what is proved needs room on the stack. Of the flags only `FL_IF` matters.

An interrupt is taken to be one with the `cli` of its entry: the gates are trap gates, so that a
second interrupt can come in before the `cli`, and this is left out.
-/

namespace OsLab.Trap

open WordStack

/-! ## The processor -/

/-- The registers of a `Context`, without those of the stack and the program. -/
inductive Reg
  | rax | rbx | rcx | rdx | rbp | rsi | rdi | r8 | r9 | r10 | r11 | r12 | r13 | r14 | r15
deriving DecidableEq, Repr

/-- The registers that an interrupt must not change. -/
@[ext]
structure Regs where
  gpr : Reg → ℕ
  rip : ℕ
  cs : ℕ
  rflags : ℕ
  rsp : ℕ
  ss : ℕ

/-- A processor: its registers, and the `rsp0` of its `tss`. -/
structure Cpu where
  regs : Regs
  ds : ℕ
  es : ℕ
  cr3 : ℕ
  rsp0 : ℕ

/-- A processor and the memory. -/
structure Machine where
  cpu : Cpu
  mem : ℕ → ℕ

def DPL_KERN : ℕ := 0
def DPL_USER : ℕ := 3
def STS_TG : ℕ := 0xf
def FL_IF : ℕ := 0x200
def SEG_KCODE : ℕ := 1
def KSEL (seg : ℕ) : ℕ := (seg <<< 3) ||| DPL_KERN

/-- The privilege level. -/
def Regs.cpl (r : Regs) : ℕ := r.cs % 4

/-- The instructions of `trap64.S`. -/
inductive Instr
  | cli
  | subRsp (n : ℕ)
  | addRsp (n : ℕ)
  | push (r : Reg)
  | pushImm (n : ℕ)
  | pop (r : Reg)
  | movFromRsp (r : Reg)
  | movToRsp (r : Reg)
  | load (offset : ℕ) (r : Reg)
  | movDs (r : Reg)
  | movEs (r : Reg)
  | jmp (r : Reg)
  | iretq

namespace Machine

def setRegs (m : Machine) (r : Regs) : Machine := { m with cpu := { m.cpu with regs := r } }

/-- A word on the stack. -/
def push (m : Machine) (v : ℕ) : Machine :=
  let s := WordStack.push 8 v (m.cpu.regs.rsp, m.mem)
  { m.setRegs { m.cpu.regs with rsp := s.1 } with mem := s.2 }

def pushes (m : Machine) (vs : List ℕ) : Machine := vs.foldl push m

/-- What an instruction does; `rip` is only followed where it matters. -/
def exec (m : Machine) : Instr → Machine
  | .cli => m.setRegs { m.cpu.regs with rflags := m.cpu.regs.rflags - (m.cpu.regs.rflags &&& FL_IF) }
  | .subRsp n => m.setRegs { m.cpu.regs with rsp := m.cpu.regs.rsp - n }
  | .addRsp n => m.setRegs { m.cpu.regs with rsp := m.cpu.regs.rsp + n }
  | .push r => m.push (m.cpu.regs.gpr r)
  | .pushImm n => m.push n
  | .pop r => m.setRegs { m.cpu.regs with
      gpr := Function.update m.cpu.regs.gpr r (m.mem m.cpu.regs.rsp)
      rsp := m.cpu.regs.rsp + 8 }
  | .movFromRsp r => m.setRegs { m.cpu.regs with
      gpr := Function.update m.cpu.regs.gpr r m.cpu.regs.rsp }
  | .movToRsp r => m.setRegs { m.cpu.regs with rsp := m.cpu.regs.gpr r }
  | .load offset r => m.setRegs { m.cpu.regs with
      gpr := Function.update m.cpu.regs.gpr r (m.mem (m.cpu.regs.rsp + offset)) }
  | .movDs r => { m with cpu := { m.cpu with ds := m.cpu.regs.gpr r % 2 ^ 16 } }
  | .movEs r => { m with cpu := { m.cpu with es := m.cpu.regs.gpr r % 2 ^ 16 } }
  | .jmp r => m.setRegs { m.cpu.regs with rip := m.cpu.regs.gpr r }
  | .iretq => m.setRegs { m.cpu.regs with
      rip := m.mem m.cpu.regs.rsp
      cs := m.mem (m.cpu.regs.rsp + 8)
      rflags := m.mem (m.cpu.regs.rsp + 16)
      rsp := m.mem (m.cpu.regs.rsp + 24)
      ss := m.mem (m.cpu.regs.rsp + 32) }

/-- One instruction after the other. -/
def run (m : Machine) (code : List Instr) : Machine := code.foldl exec m

end Machine

/-! ## The entries -/

/-- `IRQS`: number, `DPL`, and whether the processor pushes an error code. -/
def IRQS : List (ℕ × ℕ × Bool) :=
  [(0, DPL_KERN, false), (1, DPL_KERN, false), (2, DPL_KERN, false), (3, DPL_KERN, false),
    (4, DPL_KERN, false), (5, DPL_KERN, false), (6, DPL_KERN, false), (7, DPL_KERN, false),
    (8, DPL_KERN, true), (9, DPL_KERN, false), (10, DPL_KERN, true), (11, DPL_KERN, true),
    (12, DPL_KERN, true), (13, DPL_KERN, true), (14, DPL_KERN, true), (15, DPL_KERN, false),
    (16, DPL_KERN, false), (19, DPL_KERN, false), (31, DPL_KERN, false), (32, DPL_KERN, false),
    (33, DPL_KERN, false), (34, DPL_KERN, false), (35, DPL_KERN, false), (36, DPL_KERN, false),
    (37, DPL_KERN, false), (38, DPL_KERN, false), (39, DPL_KERN, false), (40, DPL_KERN, false),
    (41, DPL_KERN, false), (42, DPL_KERN, false), (43, DPL_KERN, false), (44, DPL_KERN, false),
    (45, DPL_KERN, false), (46, DPL_KERN, false), (47, DPL_KERN, false), (128, DPL_USER, false),
    (129, DPL_USER, false)]

/-- The number of a vector in `IRQS`, if it has an entry of its own. -/
def ownEntry (v : ℕ) : Option (ℕ × ℕ × Bool) := IRQS.find? fun e => e.1 = v

/-- `GateDesc64`. -/
structure GateDesc64 where
  off_15_0 : ℕ
  cs : ℕ
  isv : ℕ
  zero1 : ℕ
  type : ℕ
  zero2 : ℕ
  dpl : ℕ
  p : ℕ
  off_31_16 : ℕ
  off_63_32 : ℕ
  rsv : ℕ

/-- `GATE64`, with the widths of the fields. -/
def GATE64 (type cs entry dpl : ℕ) : GateDesc64 where
  off_15_0 := entry &&& 0xffff
  cs := cs % 2 ^ 16
  isv := 0
  zero1 := 0
  type := type % 2 ^ 4
  zero2 := 0
  dpl := dpl % 2 ^ 2
  p := 1
  off_31_16 := (entry >>> 16) &&& 0xffff
  off_63_32 := (entry >>> 32) % 2 ^ 32
  rsv := 0

/-- The address the processor reads in a gate. -/
def GateDesc64.offset (g : GateDesc64) : ℕ :=
  g.off_15_0 + g.off_31_16 <<< 16 + g.off_63_32 <<< 32

/-- The table of `cte_init`, where `entry` has the addresses of the `__am_irq..` and, at `none`, of
`__am_irqall`. -/
def idt (entry : Option ℕ → ℕ) : ℕ → GateDesc64 :=
  IRQS.foldl
    (fun t e => Function.update t e.1 (GATE64 STS_TG (KSEL SEG_KCODE) (entry (some e.1)) e.2.1))
    fun _ => GATE64 STS_TG (KSEL SEG_KCODE) (entry none) DPL_KERN

/-- `__am_irq..` and `__am_irqall`, up to the jump to `trap`. -/
def irqEntry (v : ℕ) : List Instr :=
  match ownEntry v with
  | some (id, _, err) => .cli :: (if err then [] else [.pushImm 0]) ++ [.pushImm id]
  | none => [.cli, .pushImm 0, .pushImm (2 ^ 64 - 1)]

/-- `trap`, up to the call of `__am_irq_handle`. -/
def trap : List Instr :=
  [.cli, .subRsp 48, .push .r15, .push .r14, .push .r13, .push .r12, .push .r11, .push .r10,
    .push .r9, .push .r8, .push .rdi, .push .rsi, .push .rbp, .push .rdx, .push .rcx, .push .rbx,
    .push .rax, .pushImm 0, .movFromRsp .rdi]

/-- `__am_iret`. -/
def amIret : List Instr :=
  [.movToRsp .rdi, .load 160 .rax, .movDs .rax, .movEs .rax, .addRsp 8, .pop .rax, .pop .rbx,
    .pop .rcx, .pop .rdx, .pop .rbp, .pop .rsi, .pop .rdi, .pop .r8, .pop .r9, .pop .r10,
    .pop .r11, .pop .r12, .pop .r13, .pop .r14, .pop .r15, .iretq]

/-- `__am_kcontext_start`; `panicOnReturn` is the address of `__am_panic_on_return`. -/
def amKcontextStart (panicOnReturn : ℕ) : List Instr := [.pushImm panicOnReturn, .jmp .rsi]

/-- The vectors for which the processor pushes an error code. -/
def pushesError (v : ℕ) : Bool := v ∈ [8, 10, 11, 12, 13, 14, 17, 21, 29, 30]

/-- Where the processor starts to push: on the stack it is on, or on that of `tss` when it comes from
the user's code. -/
def entryRsp (c : Cpu) : ℕ := (if c.regs.cpl = DPL_KERN then c.regs.rsp else c.rsp0) / 16 * 16

/-- The processor takes an interrupt through the gate `g`. -/
def deliver (g : GateDesc64) (v errcode : ℕ) (m : Machine) : Machine :=
  let r := m.cpu.regs
  let m := (m.setRegs { r with rsp := entryRsp m.cpu }).pushes
    ([r.ss, r.rsp, r.rflags, r.cs, r.rip] ++ if pushesError v then [errcode] else [])
  m.setRegs { m.cpu.regs with
    rip := g.offset, cs := g.cs, ss := if r.cpl = DPL_KERN then r.ss else 0 }

/-! ## Contexts -/

/-- `Context`. -/
@[ext]
structure Context where
  cr3 : ℕ
  regs : Regs
  rsp0 : ℕ

/-- The general registers in the order of their fields. -/
def gprOrder : List Reg :=
  [.rax, .rbx, .rcx, .rdx, .rbp, .rsi, .rdi, .r8, .r9, .r10, .r11, .r12, .r13, .r14, .r15]

/-- The words of a context. -/
def Context.toWords (ctx : Context) : List ℕ :=
  [ctx.cr3] ++ gprOrder.map ctx.regs.gpr ++
    [ctx.regs.rip, ctx.regs.cs, ctx.regs.rflags, ctx.regs.rsp, ctx.regs.ss, ctx.rsp0]

/-- `sizeof(Context)`. -/
def sizeofContext : ℕ := 176

/-- The offset of a register in a context. -/
def Reg.offset : Reg → ℕ
  | .rax => 8 | .rbx => 16 | .rcx => 24 | .rdx => 32 | .rbp => 40 | .rsi => 48 | .rdi => 56
  | .r8 => 64 | .r9 => 72 | .r10 => 80 | .r11 => 88 | .r12 => 96 | .r13 => 104 | .r14 => 112
  | .r15 => 120

/-- `*(Context *)p`. -/
def loadContext (mem : ℕ → ℕ) (p : ℕ) : Context where
  cr3 := mem p
  regs :=
    { gpr := fun r => mem (p + r.offset)
      rip := mem (p + 128)
      cs := mem (p + 136)
      rflags := mem (p + 144)
      rsp := mem (p + 152)
      ss := mem (p + 160) }
  rsp0 := mem (p + 168)

/-- `kcontext`: where the context is, and the memory with it. -/
def kcontext (amKcontextStart stackEnd entry arg : ℕ) (mem : ℕ → ℕ) : ℕ × (ℕ → ℕ) :=
  let ctx : Context :=
    { cr3 := 0
      regs :=
        { gpr := fun r => if r = .rdi then arg else if r = .rsi then entry else 0
          rip := amKcontextStart
          cs := KSEL SEG_KCODE
          rflags := FL_IF
          rsp := stackEnd
          ss := 0 }
      rsp0 := 0 }
  (stackEnd - sizeofContext, store 8 ctx.toWords (stackEnd - sizeofContext) mem)

/-! ## `__am_irq_handle` -/

def T_IRQ0 : ℕ := 32
def MMAP_NONE : ℕ := 0
def MMAP_READ : ℕ := 1
def MMAP_WRITE : ℕ := 2

/-- The event for `tf->irq` and `tf->errcode`; `str` has the addresses of the messages. -/
def eventOf (str : String → ℕ) (cr2 irq errcode : ℕ) : Os.Event :=
  let ev (event : Os.EventType) (msg : String) : Os.Event := ⟨event, 0, 0, str msg⟩
  if irq = T_IRQ0 + 0 then ev .irqTimer "timer interrupt (lapic)"
  else if irq = T_IRQ0 + 1 then ev .irqIodev "I/O device IRQ1 (keyboard)"
  else if irq = T_IRQ0 + 4 then ev .irqIodev "I/O device IRQ4 (COM1)"
  else if irq = 0x80 then ev .syscall "int $0x80 system call"
  else if irq = 0x81 then ev .yield "int $0x81 yield"
  else if irq = 0 then ev .error "DE #0 divide by zero"
  else if irq = 6 then ev .error "UD #6 invalid opcode"
  else if irq = 7 then ev .error "NM #7 coprocessor error"
  else if irq = 8 then ev .error "DF #8 double fault"
  else if irq = 10 then ev .error "TS #10 invalid TSS"
  else if irq = 11 then ev .error "NP #11 segment/gate not present"
  else if irq = 12 then ev .error "SS #12 stack fault"
  else if irq = 13 then ev .error "GP #13, general protection fault"
  else if irq = 14 then
    { event := .pagefault
      cause := (if errcode &&& 0x1 ≠ 0 then MMAP_NONE else 0) |||
        (if errcode &&& 0x2 ≠ 0 then MMAP_WRITE else MMAP_READ)
      ref := cr2
      msg := str "PF #14, page fault, @cause: PROT_XXX" }
  else { ev .error "unrecognized interrupt/exception" with cause := errcode }

/-- The first part of `__am_irq_handle`, with `tf` in `rdi`: the context is completed. -/
def saveContext (m : Machine) : Machine :=
  let p := m.cpu.regs.gpr .rdi
  let mem := m.mem
  let mem := Function.update mem (p + 128) (mem (p + 192))
  let mem := Function.update mem (p + 136) (mem (p + 200))
  let mem := Function.update mem (p + 144) (mem (p + 208))
  let mem := Function.update mem (p + 152) (mem (p + 216))
  let mem := Function.update mem (p + 168) m.cpu.rsp0
  let mem := Function.update mem (p + 160) (mem (p + 224))
  let mem := Function.update mem p m.cpu.cr3
  { m with mem := mem }

/-- What `user_handler` is called with: `tf->irq`, `tf->errcode`. -/
def handlerEvent (str : String → ℕ) (cr2 : ℕ) (m : Machine) : Os.Event :=
  let p := m.cpu.regs.gpr .rdi
  eventOf str cr2 (m.mem (p + 176)) (m.mem (p + 184))

/-- From an interrupt to the call of `user_handler`. -/
def enter (g : GateDesc64) (v errcode : ℕ) (m : Machine) : Machine :=
  saveContext ((deliver g v errcode m).run (irqEntry v ++ trap))

/-- `if (ret_ctx->cr3) ..`. -/
def setSpace (p : ℕ) (m : Machine) : Machine :=
  if m.mem p ≠ 0 then { m with cpu := { m.cpu with cr3 := m.mem p, rsp0 := m.mem (p + 168) } }
  else m

/-- The last part of `__am_irq_handle`, when `user_handler` has answered `p`: the call of `__am_iret`
has it in `rdi`. -/
def returnTo (p : ℕ) (m : Machine) : Machine :=
  let m := setSpace p m
  (m.setRegs { m.cpu.regs with gpr := Function.update m.cpu.regs.gpr .rdi p }).run amIret

end OsLab.Trap
