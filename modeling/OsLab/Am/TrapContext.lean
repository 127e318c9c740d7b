import OsLab.Am.Trap

/-! # What an interrupt saves, a return restores

From the interrupt to the call of the handler exactly the 232 bytes of a `trap_frame` below the
stack are written, and the context in it has the registers at the interrupt. The return to a context
puts its registers into the processor.
-/

namespace OsLab.Trap

open WordStack

variable {v errcode p : ℕ} {g : GateDesc64} {m : Machine}

/-! ## The way in -/

/-- The stack pointer and the memory. -/
def Machine.stack (m : Machine) : ℕ × (ℕ → ℕ) := (m.cpu.regs.rsp, m.mem)

/-- The words pushed so far, in this order, from the start of an interrupt of `c` on; the rest of
the processor that is saved is as it was. -/
structure Pushed (c : Cpu) (start : ℕ × (ℕ → ℕ)) (xs : List ℕ) (m : Machine) : Prop where
  stack : m.stack = pushAll 8 xs start
  gpr : m.cpu.regs.gpr = c.regs.gpr
  cr3 : m.cpu.cr3 = c.cr3
  rsp0 : m.cpu.rsp0 = c.rsp0

theorem Pushed.push {c : Cpu} {start : ℕ × (ℕ → ℕ)} {xs : List ℕ} (h : Pushed c start xs m)
    (x : ℕ) : Pushed c start (xs ++ [x]) (m.push x) := by
  refine ⟨?_, h.gpr, h.cr3, h.rsp0⟩
  rw [pushAll_append, ← h.stack]
  rfl

theorem Pushed.pushes {c : Cpu} {start : ℕ × (ℕ → ℕ)} {xs : List ℕ} (h : Pushed c start xs m)
    (ys : List ℕ) : Pushed c start (xs ++ ys) (m.pushes ys) := by
  induction ys generalizing m xs with
  | nil => rw [List.append_nil]; exact h
  | cons y ys ih =>
      rw [← List.singleton_append, ← List.append_assoc]
      exact ih (h.push y)

/-- Registers that are neither pushed nor saved. -/
theorem Pushed.setRegs {c : Cpu} {start : ℕ × (ℕ → ℕ)} {xs : List ℕ} (h : Pushed c start xs m)
    {r : Regs} (hsp : r.rsp = m.cpu.regs.rsp) (hgpr : r.gpr = m.cpu.regs.gpr) :
    Pushed c start xs (m.setRegs r) :=
  ⟨(congrArg (fun sp => (sp, m.mem)) hsp).trans h.stack, hgpr.trans h.gpr, h.cr3, h.rsp0⟩

theorem run_append (m : Machine) (xs ys : List Instr) : m.run (xs ++ ys) = (m.run xs).run ys :=
  List.foldl_append

theorem Pushed.runPush {c : Cpu} {start : ℕ × (ℕ → ℕ)} {xs : List ℕ} (h : Pushed c start xs m)
    (rs : List Reg) : Pushed c start (xs ++ rs.map c.regs.gpr) (m.run (rs.map .push)) := by
  induction rs generalizing m xs with
  | nil => rw [List.map_nil, List.append_nil]; exact h
  | cons r rs ih =>
      rw [List.map_cons, ← List.singleton_append, ← List.append_assoc, ← h.gpr]
      have hstep := ih (h.push (m.cpu.regs.gpr r))
      rw [← h.gpr] at hstep
      exact hstep

/-- The word in the place of the error code. -/
def errorWord (v errcode : ℕ) : ℕ := if pushesError v then errcode else 0

/-- The word in `tf->irq`. -/
def irqWord (v : ℕ) : ℕ :=
  match ownEntry v with
  | some e => e.1
  | none => 2 ^ 64 - 1

/-- The entry pushes a word exactly where the processor does not. -/
def Handled (v : ℕ) : Prop := pushesError v = ((ownEntry v).map fun e => e.2.2).getD false

instance (v : ℕ) : Decidable (Handled v) := inferInstanceAs (Decidable (_ = _))

/-- The words of a `trap_frame` above the context, the last one first. -/
def frameWords (c : Cpu) (v errcode : ℕ) : List ℕ :=
  [c.regs.ss, c.regs.rsp, c.regs.rflags, c.regs.cs, c.regs.rip, errorWord v errcode, irqWord v]

theorem deliver_pushed (g : GateDesc64) (v errcode : ℕ) (m : Machine) :
    Pushed m.cpu (entryRsp m.cpu, m.mem)
      ([m.cpu.regs.ss, m.cpu.regs.rsp, m.cpu.regs.rflags, m.cpu.regs.cs, m.cpu.regs.rip] ++
        if pushesError v then [errcode] else []) (deliver g v errcode m) := by
  have hstart : Pushed m.cpu (entryRsp m.cpu, m.mem) []
      (m.setRegs { m.cpu.regs with rsp := entryRsp m.cpu }) := ⟨rfl, rfl, rfl, rfl⟩
  exact (hstart.pushes _).setRegs rfl rfl

theorem irqEntry_pushed (hv : Handled v) (g : GateDesc64) (errcode : ℕ) (m : Machine) :
    Pushed m.cpu (entryRsp m.cpu, m.mem) (frameWords m.cpu v errcode)
      ((deliver g v errcode m).run (irqEntry v)) := by
  have h := deliver_pushed g v errcode m
  unfold Handled at hv
  unfold frameWords errorWord irqWord irqEntry
  generalize deliver g v errcode m = d at h
  cases he : ownEntry v with
  | none =>
      rw [he] at hv
      have herr : pushesError v = false := hv
      rw [herr] at h ⊢
      exact ((h.setRegs (r := (d.exec .cli).cpu.regs) rfl rfl).push 0).push (2 ^ 64 - 1)
  | some e =>
      rw [he] at hv
      obtain ⟨id, dpl, err⟩ := e
      have herr : pushesError v = err := hv
      rw [herr] at h ⊢
      cases err
      · exact ((h.setRegs (r := (d.exec .cli).cpu.regs) rfl rfl).push 0).push id
      · exact (h.setRegs (r := (d.exec .cli).cpu.regs) rfl rfl).push id

/-- `trap` pushes the registers, below room for those that the processor has pushed. -/
theorem trap_pushed (m : Machine) :
    ∃ m', Pushed m.cpu (m.cpu.regs.rsp - 48, m.mem) (gprOrder.reverse.map m.cpu.regs.gpr ++ [0]) m' ∧
      m.run trap = m'.exec (.movFromRsp .rdi) := by
  have hcode : trap = [.cli, .subRsp 48] ++ gprOrder.reverse.map .push ++
      [.pushImm 0, .movFromRsp .rdi] := rfl
  have hstart : Pushed m.cpu (m.cpu.regs.rsp - 48, m.mem) [] (m.run [.cli, .subRsp 48]) :=
    ⟨rfl, rfl, rfl, rfl⟩
  refine ⟨_, (hstart.runPush gprOrder.reverse).push 0, ?_⟩
  rw [hcode, run_append, run_append]
  rfl

/-- The size of a `trap_frame`. -/
def sizeofFrame : ℕ := 232

/-- A `trap_frame` at `p`, before `__am_irq_handle` has completed the context. -/
structure Frame (c : Cpu) (v errcode p : ℕ) (mem : ℕ → ℕ) : Prop where
  gpr : ∀ r, mem (p + Reg.offset r) = c.regs.gpr r
  irq : mem (p + 176) = irqWord v
  errcode : mem (p + 184) = errorWord v errcode
  rip : mem (p + 192) = c.regs.rip
  cs : mem (p + 200) = c.regs.cs
  rflags : mem (p + 208) = c.regs.rflags
  rsp : mem (p + 216) = c.regs.rsp
  ss : mem (p + 224) = c.regs.ss

/-- Which word of a context a register is. -/
theorem gprOrder_offset (r : Reg) : ∃ i, gprOrder[i]? = some r ∧ r.offset = 8 * (i + 1) := by
  cases r with
  | rax => exact ⟨0, rfl, rfl⟩
  | rbx => exact ⟨1, rfl, rfl⟩
  | rcx => exact ⟨2, rfl, rfl⟩
  | rdx => exact ⟨3, rfl, rfl⟩
  | rbp => exact ⟨4, rfl, rfl⟩
  | rsi => exact ⟨5, rfl, rfl⟩
  | rdi => exact ⟨6, rfl, rfl⟩
  | r8 => exact ⟨7, rfl, rfl⟩
  | r9 => exact ⟨8, rfl, rfl⟩
  | r10 => exact ⟨9, rfl, rfl⟩
  | r11 => exact ⟨10, rfl, rfl⟩
  | r12 => exact ⟨11, rfl, rfl⟩
  | r13 => exact ⟨12, rfl, rfl⟩
  | r14 => exact ⟨13, rfl, rfl⟩
  | r15 => exact ⟨14, rfl, rfl⟩

theorem offset_le (r : Reg) : 8 ≤ r.offset ∧ r.offset ≤ 120 := by
  cases r <;> decide

theorem entry_frame (g : GateDesc64) (errcode : ℕ) (hv : Handled v) (hroom : sizeofFrame ≤ entryRsp m.cpu) :
    Frame m.cpu v errcode (entryRsp m.cpu - sizeofFrame)
        ((deliver g v errcode m).run (irqEntry v ++ trap)).mem ∧
      ((deliver g v errcode m).run (irqEntry v ++ trap)).cpu.regs.gpr .rdi =
        entryRsp m.cpu - sizeofFrame ∧
      ((deliver g v errcode m).run (irqEntry v ++ trap)).cpu.cr3 = m.cpu.cr3 ∧
      ((deliver g v errcode m).run (irqEntry v ++ trap)).cpu.rsp0 = m.cpu.rsp0 ∧
      ∀ a, a < entryRsp m.cpu - sizeofFrame ∨ entryRsp m.cpu ≤ a →
        ((deliver g v errcode m).run (irqEntry v ++ trap)).mem a = m.mem a := by
  have h1 := irqEntry_pushed hv g errcode m
  rw [run_append]
  generalize (deliver g v errcode m).run (irqEntry v) = m1 at h1
  rcases trap_pushed m1 with ⟨m2, h2, hm2⟩
  unfold sizeofFrame at hroom ⊢
  have hlen1 : (frameWords m.cpu v errcode).length = 7 := rfl
  have hlen2 : (gprOrder.reverse.map m1.cpu.regs.gpr ++ [0]).length = 16 := rfl
  -- where the stack pointer is
  have hsp1 : m1.cpu.regs.rsp = entryRsp m.cpu - 56 := by
    have hsp := (congrArg Prod.fst h1.stack).trans (pushAll_sp _ _)
    rwa [hlen1] at hsp
  have hsp2 : m2.cpu.regs.rsp = entryRsp m.cpu - 232 := by
    have hsp := (congrArg Prod.fst h2.stack).trans (pushAll_sp _ _)
    rw [hlen2] at hsp
    show m2.stack.1 = _
    rw [hsp, hsp1]
    omega
  -- what is in memory
  have hmem1 : m1.mem = (pushAll 8 (frameWords m.cpu v errcode) (entryRsp m.cpu, m.mem)).2 :=
    congrArg Prod.snd h1.stack
  have hmem2 : m2.mem = (pushAll 8 (gprOrder.reverse.map m1.cpu.regs.gpr ++ [0])
      (m1.cpu.regs.rsp - 48, m1.mem)).2 := congrArg Prod.snd h2.stack
  have hwords1 : words 8 m1.mem (entryRsp m.cpu - 56) 7 = (frameWords m.cpu v errcode).reverse := by
    have hw := words_pushAll (frameWords m.cpu v errcode) (entryRsp m.cpu, m.mem)
      (by rw [hlen1]; omega) (by decide : 0 < 8) 0
    rw [← hmem1, pushAll_sp, hlen1] at hw
    rw [hw]
    exact List.append_nil _
  have hwords2 : words 8 m2.mem (entryRsp m.cpu - 232) 16 = 0 :: gprOrder.map m1.cpu.regs.gpr := by
    have hw := words_pushAll (gprOrder.reverse.map m1.cpu.regs.gpr ++ [0])
      (m1.cpu.regs.rsp - 48, m1.mem) (by rw [hlen2, hsp1]; omega) (by decide : 0 < 8) 0
    rw [← hmem2, pushAll_sp, hlen2, hsp1] at hw
    have haddr : entryRsp m.cpu - 56 - 48 - 8 * 16 = entryRsp m.cpu - 232 := by omega
    rw [haddr] at hw
    rw [hw]
    rfl
  have habove (a : ℕ) (ha : entryRsp m.cpu - 104 ≤ a) : m2.mem a = m1.mem a := by
    rw [hmem2]
    exact pushAll_frame (by rw [hlen2, hsp1]; omega) (by decide) (Or.inr (by rw [hsp1]; omega))
  have hword (i x : ℕ) (hx : (frameWords m.cpu v errcode).reverse[i]? = some x) :
      m2.mem (entryRsp m.cpu - 232 + (176 + 8 * i)) = x := by
    have haddr : entryRsp m.cpu - 232 + (176 + 8 * i) = entryRsp m.cpu - 56 + 8 * i := by omega
    rw [haddr, habove _ (by omega)]
    exact mem_of_words_eq hwords1 hx
  rw [hm2]
  refine ⟨⟨fun r => ?_, hword 0 _ rfl, hword 1 _ rfl, hword 2 _ rfl, hword 3 _ rfl, hword 4 _ rfl,
    hword 5 _ rfl, hword 6 _ rfl⟩, ?_, ?_, ?_, fun a ha => ?_⟩
  · rcases gprOrder_offset r with ⟨i, hi, hoff⟩
    have hget : (0 :: gprOrder.map m1.cpu.regs.gpr)[i + 1]? = some (m1.cpu.regs.gpr r) := by
      rw [List.getElem?_cons_succ, List.getElem?_map, hi]
      rfl
    rw [hoff, ← h1.gpr]
    exact mem_of_words_eq hwords2 hget
  · show Function.update m2.cpu.regs.gpr .rdi m2.cpu.regs.rsp .rdi = _
    rw [Function.update_self, hsp2]
  · exact h2.cr3.trans h1.cr3
  · exact h2.rsp0.trans h1.rsp0
  · have hout1 : m1.mem a = m.mem a := by
      rw [hmem1]
      exact pushAll_frame (by rw [hlen1]; omega) (by decide) (by rw [hlen1]; omega)
    have hout2 : m2.mem a = m1.mem a := by
      rw [hmem2]
      exact pushAll_frame (by rw [hlen2, hsp1]; omega) (by decide) (by rw [hlen2, hsp1]; omega)
    exact hout2.trans hout1

/-- What is known when `user_handler` is called: the context is at `p`, complete. -/
structure Entered (c : Cpu) (mem : ℕ → ℕ) (v errcode p : ℕ) (m : Machine) : Prop where
  rdi : m.cpu.regs.gpr .rdi = p
  context : loadContext m.mem p = ⟨c.cr3, c.regs, c.rsp0⟩
  irq : m.mem (p + 176) = irqWord v
  errcode : m.mem (p + 184) = errorWord v errcode
  cr3 : m.cpu.cr3 = c.cr3
  rsp0 : m.cpu.rsp0 = c.rsp0
  outside : ∀ a, a < p ∨ p + sizeofFrame ≤ a → m.mem a = mem a

/-- The interrupt saves the registers, and writes nothing but the frame. -/
theorem enter_spec (g : GateDesc64) (errcode : ℕ) (hv : Handled v) (hroom : sizeofFrame ≤ entryRsp m.cpu) :
    Entered m.cpu m.mem v errcode (entryRsp m.cpu - sizeofFrame) (enter g v errcode m) := by
  obtain ⟨hf, hrdi, hcr3, hrsp0, hout⟩ := entry_frame g errcode hv hroom
  unfold enter
  generalize (deliver g v errcode m).run (irqEntry v ++ trap) = m' at hf hrdi hcr3 hrsp0 hout
  have hback : entryRsp m.cpu - sizeofFrame + sizeofFrame = entryRsp m.cpu :=
    Nat.sub_add_cancel hroom
  generalize entryRsp m.cpu - sizeofFrame = p at *
  have hmem (a : ℕ) : (saveContext m').mem a =
      if a = p then m'.cpu.cr3 else if a = p + 160 then m'.mem (p + 224)
      else if a = p + 168 then m'.cpu.rsp0 else if a = p + 152 then m'.mem (p + 216)
      else if a = p + 144 then m'.mem (p + 208) else if a = p + 136 then m'.mem (p + 200)
      else if a = p + 128 then m'.mem (p + 192) else m'.mem a := by
    unfold saveContext
    rw [hrdi]
    simp only [Function.update_apply, Nat.add_left_cancel_iff, Nat.reduceEqDiff, if_false]
  have hother (a : ℕ) (ha : a < p ∨ p < a ∧ a < p + 128 ∨ p + 168 < a) :
      (saveContext m').mem a = m'.mem a := by
    rw [hmem]
    repeat' rw [if_neg (by omega)]
  refine ⟨hrdi, ?_, ?_, ?_, hcr3, hrsp0, fun a ha => ?_⟩
  · have hgpr : (fun r : Reg => (saveContext m').mem (p + r.offset)) = m.cpu.regs.gpr := by
      funext r
      have hoff := offset_le r
      rw [hother _ (by omega)]
      exact hf.gpr r
    refine Context.ext ?_ (Regs.ext hgpr ?_ ?_ ?_ ?_ ?_) ?_
    · simpa [loadContext, hmem] using hcr3
    · simpa [loadContext, hmem] using hf.rip
    · simpa [loadContext, hmem] using hf.cs
    · simpa [loadContext, hmem] using hf.rflags
    · simpa [loadContext, hmem] using hf.rsp
    · simpa [loadContext, hmem] using hf.ss
    · simpa [loadContext, hmem] using hrsp0
  · rw [hother _ (by omega)]
    exact hf.irq
  · rw [hother _ (by omega)]
    exact hf.errcode
  · unfold sizeofFrame at ha hback
    rw [hother _ (by omega)]
    exact hout a (by omega)

/-! ## The way out -/

/-- The processor on the way back to the context at `p`. -/
structure Returned (p : ℕ) (m m' : Machine) : Prop where
  regs : m'.cpu.regs = (loadContext m.mem p).regs
  data : m'.cpu.ds = m'.cpu.regs.ss % 2 ^ 16 ∧ m'.cpu.es = m'.cpu.regs.ss % 2 ^ 16
  space : m.mem p ≠ 0 → m'.cpu.cr3 = m.mem p ∧ m'.cpu.rsp0 = (loadContext m.mem p).rsp0
  sameSpace : m.mem p = 0 → m'.cpu.cr3 = m.cpu.cr3 ∧ m'.cpu.rsp0 = m.cpu.rsp0
  mem : m'.mem = m.mem

/-- Popping registers one after the other. -/
structure Popped (rs : List Reg) (m m' : Machine) : Prop where
  mem : m'.mem = m.mem
  rsp : m'.cpu.regs.rsp = m.cpu.regs.rsp + 8 * rs.length
  gpr : ∀ i r, rs[i]? = some r → m'.cpu.regs.gpr r = m.mem (m.cpu.regs.rsp + 8 * i)
  other : ∀ r ∉ rs, m'.cpu.regs.gpr r = m.cpu.regs.gpr r
  ds : m'.cpu.ds = m.cpu.ds
  es : m'.cpu.es = m.cpu.es
  cr3 : m'.cpu.cr3 = m.cpu.cr3
  rsp0 : m'.cpu.rsp0 = m.cpu.rsp0

theorem run_pop (rs : List Reg) (hn : rs.Nodup) (m : Machine) :
    Popped rs m (m.run (rs.map .pop)) := by
  induction rs generalizing m with
  | nil => exact ⟨rfl, rfl, fun i r h => by simp at h, fun _ _ => rfl, rfl, rfl, rfl, rfl⟩
  | cons r rs ih =>
      obtain ⟨hr, hn⟩ := List.nodup_cons.1 hn
      have h := ih hn (m.exec (.pop r))
      have hrun : m.run ((r :: rs).map .pop) = (m.exec (.pop r)).run (rs.map .pop) := rfl
      have hsp : (m.exec (.pop r)).cpu.regs.rsp = m.cpu.regs.rsp + 8 := rfl
      rw [hrun]
      refine ⟨h.mem, ?_, fun i r' hi => ?_, fun r' hr' => ?_, h.ds, h.es, h.cr3, h.rsp0⟩
      · rw [h.rsp, hsp, List.length_cons]
        omega
      · cases i with
        | zero =>
            have heq : r = r' := Option.some.inj hi
            rw [← heq, h.other r hr]
            exact Function.update_self _ _ _
        | succ i =>
            have haddr : m.cpu.regs.rsp + 8 * (i + 1) = m.cpu.regs.rsp + 8 + 8 * i := by omega
            rw [h.gpr i r' hi, hsp, haddr]
            rfl
      · rw [List.mem_cons, not_or] at hr'
        rw [h.other r' hr'.2]
        exact Function.update_of_ne hr'.1 _ _

/-- What `__am_iret` makes of the processor. -/
theorem amIret_run (hp : m.cpu.regs.gpr .rdi = p) :
    (m.run amIret).cpu.regs = (loadContext m.mem p).regs ∧
      (m.run amIret).cpu.ds = m.mem (p + 160) % 2 ^ 16 ∧
      (m.run amIret).cpu.es = m.mem (p + 160) % 2 ^ 16 ∧
      (m.run amIret).cpu.cr3 = m.cpu.cr3 ∧ (m.run amIret).cpu.rsp0 = m.cpu.rsp0 ∧
      (m.run amIret).mem = m.mem := by
  have hcode : amIret = [.movToRsp .rdi, .load 160 .rax, .movDs .rax, .movEs .rax, .addRsp 8] ++
      gprOrder.map .pop ++ [.iretq] := rfl
  rw [hcode, run_append, run_append]
  have hstart : (m.run [.movToRsp .rdi, .load 160 .rax, .movDs .rax, .movEs .rax,
      .addRsp 8]).cpu.regs.rsp = p + 8 := by rw [← hp]; rfl
  have hdata : (m.run [.movToRsp .rdi, .load 160 .rax, .movDs .rax, .movEs .rax,
      .addRsp 8]).cpu.ds = m.mem (p + 160) % 2 ^ 16 ∧
      (m.run [.movToRsp .rdi, .load 160 .rax, .movDs .rax, .movEs .rax,
        .addRsp 8]).cpu.es = m.mem (p + 160) % 2 ^ 16 := by
    rw [← hp]
    exact ⟨rfl, rfl⟩
  have hkeep : (m.run [.movToRsp .rdi, .load 160 .rax, .movDs .rax, .movEs .rax,
      .addRsp 8]).mem = m.mem ∧
      (m.run [.movToRsp .rdi, .load 160 .rax, .movDs .rax, .movEs .rax,
        .addRsp 8]).cpu.cr3 = m.cpu.cr3 ∧
      (m.run [.movToRsp .rdi, .load 160 .rax, .movDs .rax, .movEs .rax,
        .addRsp 8]).cpu.rsp0 = m.cpu.rsp0 := ⟨rfl, rfl, rfl⟩
  generalize m.run [.movToRsp .rdi, .load 160 .rax, .movDs .rax, .movEs .rax, .addRsp 8] = m1
    at hstart hdata hkeep
  have hpop := run_pop gprOrder (by decide) m1
  generalize m1.run (gprOrder.map .pop) = m2 at hpop
  have hrsp : m2.cpu.regs.rsp = p + 128 := by
    rw [hpop.rsp, hstart]
    rfl
  have hmem : m2.mem = m.mem := hpop.mem.trans hkeep.1
  refine ⟨?_, hpop.ds.trans hdata.1, hpop.es.trans hdata.2, hpop.cr3.trans hkeep.2.1,
    hpop.rsp0.trans hkeep.2.2, hmem⟩
  have hgpr : m2.cpu.regs.gpr = fun r => m.mem (p + r.offset) := by
    funext r
    rcases gprOrder_offset r with ⟨i, hi, hoff⟩
    have haddr : p + 8 + 8 * i = p + 8 * (i + 1) := by omega
    rw [hpop.gpr i r hi, hkeep.1, hstart, hoff, haddr]
  refine Regs.ext hgpr ?_ ?_ ?_ ?_ ?_
  · show m2.mem m2.cpu.regs.rsp = m.mem (p + 128)
    rw [hrsp, hmem]
  · show m2.mem (m2.cpu.regs.rsp + 8) = m.mem (p + 136)
    rw [hrsp, hmem]
  · show m2.mem (m2.cpu.regs.rsp + 16) = m.mem (p + 144)
    rw [hrsp, hmem]
  · show m2.mem (m2.cpu.regs.rsp + 24) = m.mem (p + 152)
    rw [hrsp, hmem]
  · show m2.mem (m2.cpu.regs.rsp + 32) = m.mem (p + 160)
    rw [hrsp, hmem]

theorem setSpace_keep (p : ℕ) (m : Machine) :
    (setSpace p m).mem = m.mem ∧ (setSpace p m).cpu.regs = m.cpu.regs := by
  unfold setSpace
  split
  · exact ⟨rfl, rfl⟩
  · exact ⟨rfl, rfl⟩

/-- The return puts the context at `p` into the processor, and leaves the memory alone. -/
theorem returnTo_spec (p : ℕ) (m : Machine) : Returned p m (returnTo p m) := by
  have hrdi (r : Regs) : Function.update r.gpr .rdi p .rdi = p := Function.update_self _ _ _
  obtain ⟨hregs, hds, hes, hcr3, hrsp0, hmem⟩ := amIret_run (m := (setSpace p m).setRegs
    { (setSpace p m).cpu.regs with gpr := Function.update (setSpace p m).cpu.regs.gpr .rdi p })
    (hrdi (setSpace p m).cpu.regs)
  have hm : ((setSpace p m).setRegs { (setSpace p m).cpu.regs with
      gpr := Function.update (setSpace p m).cpu.regs.gpr .rdi p }).mem = m.mem :=
    (setSpace_keep p m).1
  rw [hm] at hregs hds hes
  refine ⟨hregs, ?_, fun hp => ?_, fun hp => ?_, hmem.trans hm⟩
  · have hss : (returnTo p m).cpu.regs.ss = m.mem (p + 160) := congrArg Regs.ss hregs
    rw [hss]
    exact ⟨hds, hes⟩
  · have hspace : (setSpace p m).cpu = { m.cpu with cr3 := m.mem p, rsp0 := m.mem (p + 168) } := by
      rw [setSpace, if_pos hp]
    exact ⟨hcr3.trans (congrArg Cpu.cr3 hspace), hrsp0.trans (congrArg Cpu.rsp0 hspace)⟩
  · have hspace : (setSpace p m).cpu = m.cpu := by rw [setSpace, if_neg (not_not.2 hp)]
    have h3 : (setSpace p m).cpu.cr3 = m.cpu.cr3 := by rw [hspace]
    have h0 : (setSpace p m).cpu.rsp0 = m.cpu.rsp0 := by rw [hspace]
    exact ⟨hcr3.trans h3, hrsp0.trans h0⟩

/-! ## A new context -/

theorem loadContext_of_words {mem : ℕ → ℕ} {ctx : Context} (h : words 8 mem p 22 = ctx.toWords) :
    loadContext mem p = ctx := by
  have hget (i x : ℕ) (hx : ctx.toWords[i]? = some x) : mem (p + 8 * i) = x := mem_of_words_eq h hx
  have hgpr : (fun r : Reg => mem (p + r.offset)) = ctx.regs.gpr := by
    funext r
    rcases gprOrder_offset r with ⟨i, hi, hoff⟩
    rw [hoff]
    refine hget (i + 1) _ ?_
    have hlen : i < (gprOrder.map ctx.regs.gpr).length := by
      rw [List.length_map]
      exact (List.getElem?_eq_some_iff.1 hi).1
    rw [Context.toWords, List.append_assoc, List.singleton_append, List.getElem?_cons_succ,
      List.getElem?_append_left hlen, List.getElem?_map, hi]
    rfl
  exact Context.ext (hget 0 _ rfl) (Regs.ext hgpr (hget 16 _ rfl) (hget 17 _ rfl) (hget 18 _ rfl)
    (hget 19 _ rfl) (hget 20 _ rfl)) (hget 21 _ rfl)

/-- The state in which a new task begins. -/
def startRegs (kcontextStart stackEnd entry arg : ℕ) : Regs where
  gpr r := if r = .rdi then arg else if r = .rsi then entry else 0
  rip := kcontextStart
  cs := KSEL SEG_KCODE
  rflags := FL_IF
  rsp := stackEnd
  ss := 0

theorem kcontext_spec (start entry arg : ℕ) (mem : ℕ → ℕ) {stackEnd : ℕ}
    (h : sizeofContext ≤ stackEnd) :
    (kcontext start stackEnd entry arg mem).1 = stackEnd - sizeofContext ∧
      loadContext (kcontext start stackEnd entry arg mem).2 (stackEnd - sizeofContext) =
        ⟨0, startRegs start stackEnd entry arg, 0⟩ ∧
      ∀ a, a < stackEnd - sizeofContext ∨ stackEnd ≤ a →
        (kcontext start stackEnd entry arg mem).2 a = mem a := by
  refine ⟨rfl, loadContext_of_words (words_store (by decide)), fun a ha => ?_⟩
  have hlen (ctx : Context) : 8 * ctx.toWords.length = sizeofContext := rfl
  refine store_frame ?_ (by decide)
  rw [hlen, Nat.sub_add_cancel h]
  exact ha

/-- From there it goes to `entry`, with `arg` in `rdi` and a return address that panics. -/
theorem kcontextStart_run {start stackEnd entry arg : ℕ}
    (hm : m.cpu.regs = startRegs start stackEnd entry arg) (panicOnReturn : ℕ) :
    (m.run (amKcontextStart panicOnReturn)).cpu.regs =
        { startRegs start stackEnd entry arg with rip := entry, rsp := stackEnd - 8 } ∧
      (m.run (amKcontextStart panicOnReturn)).mem =
        Function.update m.mem (stackEnd - 8) panicOnReturn := by
  have hrun : m.run (amKcontextStart panicOnReturn) = (m.push panicOnReturn).exec (.jmp .rsi) := rfl
  rw [hrun]
  constructor
  · show ({ m.cpu.regs with rsp := m.cpu.regs.rsp - 8, rip := m.cpu.regs.gpr .rsi } : Regs) = _
    rw [hm]
    rfl
  · show Function.update m.mem (m.cpu.regs.rsp - 8) panicOnReturn = _
    rw [hm]
    rfl

end OsLab.Trap
