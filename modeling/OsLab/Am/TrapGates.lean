import OsLab.Am.TrapContext

/-! # The gates, and what a user can call

Every vector leads through its gate to its own entry. The gates of 0x80 and 0x81 are the only ones
that are open to the user: any other `int` of the user's code is a general protection fault.
-/

namespace OsLab.Trap

variable {irq : Option ℕ → ℕ} {v n : ℕ} {m : Machine}

/-- `int n`: the vector that is taken, and its error code. -/
def softInt (irq : Option ℕ → ℕ) (c : Cpu) (n : ℕ) : ℕ × ℕ :=
  if (idt irq n).dpl < c.regs.cpl then (13, n * 8 + 2) else (n, 0)

/-! ## The table -/

/-- A table that is filled entry by entry, each at a place of its own. -/
theorem foldl_update {β ε : Type*} (key : ε → ℕ) (val : ε → β) {l : List ε}
    (hl : (l.map key).Nodup) (t : ℕ → β) (v : ℕ) :
    l.foldl (fun t e => Function.update t (key e) (val e)) t v =
      ((l.find? fun e => key e = v).map val).getD (t v) := by
  induction l generalizing t with
  | nil => rfl
  | cons e l ih =>
      obtain ⟨he, hl⟩ := List.nodup_cons.1 hl
      rw [List.foldl_cons, ih hl, List.find?_cons]
      by_cases hv : key e = v
      · have hnone : l.find? (fun e => key e = v) = none := by
          refine List.find?_eq_none.2 fun e' he' => ?_
          rw [decide_eq_true_iff]
          intro heq
          exact he (List.mem_map.2 ⟨e', he', heq.trans hv.symm⟩)
        rw [hnone, decide_eq_true hv, ← hv]
        exact Function.update_self _ _ _
      · rw [decide_eq_false hv, Function.update_of_ne (Ne.symm hv)]

theorem idt_eq (irq : Option ℕ → ℕ) (v : ℕ) : idt irq v =
    GATE64 STS_TG (KSEL SEG_KCODE) (irq ((ownEntry v).map Prod.fst))
      (((ownEntry v).map fun e => e.2.1).getD DPL_KERN) := by
  have hkeys : (IRQS.map Prod.fst).Nodup := by decide
  unfold idt ownEntry
  rw [foldl_update Prod.fst _ hkeys]
  cases IRQS.find? fun e => e.1 = v <;> rfl

theorem ownEntry_some {e : ℕ × ℕ × Bool} (h : ownEntry v = some e) : e ∈ IRQS ∧ e.1 = v :=
  ⟨List.mem_of_find?_eq_some h, by simpa using List.find?_some h⟩

/-- The three parts of an address. -/
theorem GATE64_offset {type cs entry dpl : ℕ} (h : entry < 2 ^ 64) :
    (GATE64 type cs entry dpl).offset = entry := by
  have hmask : (0xffff : ℕ) = 2 ^ 16 - 1 := by decide
  unfold GateDesc64.offset GATE64
  simp only [hmask, Nat.and_two_pow_sub_one_eq_mod, Nat.shiftRight_eq_div_pow, Nat.shiftLeft_eq]
  omega

theorem idt_offset (hirq : ∀ o, irq o < 2 ^ 64) (v : ℕ) :
    (idt irq v).offset = irq ((ownEntry v).map Prod.fst) := by
  rw [idt_eq]
  exact GATE64_offset (hirq _)

/-- The gates that are open to the user. -/
theorem idt_dpl (irq : Option ℕ → ℕ) (v : ℕ) :
    (idt irq v).dpl = if v = 0x80 ∨ v = 0x81 then DPL_USER else DPL_KERN := by
  have hentries : ∀ e ∈ IRQS, e.2.1 = if e.1 = 0x80 ∨ e.1 = 0x81 then DPL_USER else DPL_KERN := by
    decide
  have hown : ((ownEntry v).map fun e => e.2.1).getD DPL_KERN =
      if v = 0x80 ∨ v = 0x81 then DPL_USER else DPL_KERN := by
    cases he : ownEntry v with
    | none =>
        have h80 : ownEntry 0x80 ≠ none := by decide
        have h81 : ownEntry 0x81 ≠ none := by decide
        refine (if_neg ?_).symm
        rintro (rfl | rfl)
        · exact h80 he
        · exact h81 he
    | some e =>
        obtain ⟨hmem, hv⟩ := ownEntry_some he
        rw [← hv]
        exact hentries e hmem
  rw [idt_eq, hown]
  show (if v = 0x80 ∨ v = 0x81 then DPL_USER else DPL_KERN) % 2 ^ 2 = _
  split <;> rfl

/-- The vectors with an error code that their entries do not know of. -/
theorem handled_iff : Handled v ↔ v ∉ [17, 21, 29, 30] := by
  have hflags : ∀ e ∈ IRQS, e.2.2 = true → e.1 ∈ [8, 10, 11, 12, 13, 14] := by decide
  by_cases hv : v ∈ [8, 10, 11, 12, 13, 14, 17, 21, 29, 30]
  · simp only [List.mem_cons, List.not_mem_nil, or_false] at hv
    rcases hv with rfl | rfl | rfl | rfl | rfl | rfl | rfl | rfl | rfl | rfl <;> decide
  · have hpush : pushesError v = false := decide_eq_false hv
    have hown : ((ownEntry v).map fun e => e.2.2).getD false = false := by
      cases he : ownEntry v with
      | none => rfl
      | some e =>
          obtain ⟨hmem, hkey⟩ := ownEntry_some he
          refine Bool.eq_false_of_not_eq_true fun htrue => hv ?_
          have hin := hflags e hmem htrue
          rw [hkey] at hin
          simp only [List.mem_cons, List.not_mem_nil, or_false] at hin ⊢
          omega
    refine iff_of_true (hpush.trans hown.symm) fun hin => hv ?_
    simp only [List.mem_cons, List.not_mem_nil, or_false] at hin ⊢
    omega

/-! ## `int` from the user's code -/

theorem softInt_user (irq : Option ℕ → ℕ) {c : Cpu} (hcpl : c.regs.cpl = DPL_USER) (n : ℕ) :
    softInt irq c n = if n = 0x80 ∨ n = 0x81 then (n, 0) else (13, n * 8 + 2) := by
  unfold softInt
  rw [idt_dpl, hcpl]
  by_cases hn : n = 0x80 ∨ n = 0x81
  · rw [if_pos hn, if_pos hn]
    rfl
  · rw [if_neg hn, if_neg hn]
    rfl

/-- The event of a user's `int`. -/
def userEvent (str : String → ℕ) (n : ℕ) : Os.Event :=
  if n = 0x80 then ⟨.syscall, 0, 0, str "int $0x80 system call"⟩
  else if n = 0x81 then ⟨.yield, 0, 0, str "int $0x81 yield"⟩
  else ⟨.error, 0, 0, str "GP #13, general protection fault"⟩

/-- Whatever `int` the user's code has, the processor arrives at the entry of its vector, and the
handler is called for a system call, for a yield, or for a protection fault. -/
theorem userInt_event (hirq : ∀ o, irq o < 2 ^ 64) (hcpl : m.cpu.regs.cpl = DPL_USER)
    (hroom : sizeofFrame ≤ entryRsp m.cpu) (str : String → ℕ) (cr2 n : ℕ) :
    (deliver (idt irq (softInt irq m.cpu n).1) (softInt irq m.cpu n).1 (softInt irq m.cpu n).2
        m).cpu.regs.rip = irq (some (softInt irq m.cpu n).1) ∧
      handlerEvent str cr2 (enter (idt irq (softInt irq m.cpu n).1) (softInt irq m.cpu n).1
        (softInt irq m.cpu n).2 m) = userEvent str n := by
  rw [softInt_user irq hcpl]
  have hevent (v errcode : ℕ) (hv : Handled v) :
      handlerEvent str cr2 (enter (idt irq v) v errcode m) =
        eventOf str cr2 (irqWord v) (errorWord v errcode) := by
    have hent := enter_spec (idt irq v) errcode hv hroom
    rw [handlerEvent, hent.rdi, hent.irq, hent.errcode]
  have hrip (v errcode : ℕ) (hv : (ownEntry v).map Prod.fst = some v) :
      (deliver (idt irq v) v errcode m).cpu.regs.rip = irq (some v) := by
    rw [← hv]
    exact idt_offset hirq v
  by_cases h80 : n = 0x80
  · subst h80
    exact ⟨hrip 0x80 0 (by decide), hevent 0x80 0 (by decide)⟩
  · by_cases h81 : n = 0x81
    · subst h81
      exact ⟨hrip 0x81 0 (by decide), hevent 0x81 0 (by decide)⟩
    · have hother : ¬ (n = 0x80 ∨ n = 0x81) := not_or.2 ⟨h80, h81⟩
      rw [if_neg hother, userEvent, if_neg h80, if_neg h81]
      exact ⟨hrip 13 _ (by decide), hevent 13 _ (by decide)⟩

/-- A processor in the user's code. -/
def userMachine : Machine where
  cpu := ⟨⟨fun _ => 0, 0x8000, 0x1b, FL_IF, 0x7fff0, 0x23⟩, 0x23, 0x23, 0x5000, 0x100ff0⟩
  mem _ := 0

theorem userInt_disk :
    handlerEvent (fun _ => 0x600) 0 (enter (idt (fun _ => 0x1234) 13) 13 274 userMachine) =
      ⟨.error, 0, 0, 0x600⟩ := by
  have hint : softInt (fun _ => 0x1234) userMachine.cpu 34 = (13, 274) := by decide
  have haddr : 0x1234 < 2 ^ 64 := by decide
  have h := (userInt_event (m := userMachine) (fun _ => haddr) (by decide) (by decide) (fun _ => 0x600) 0
    34).2
  rw [hint] at h
  exact h

end OsLab.Trap
