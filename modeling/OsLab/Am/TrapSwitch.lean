import OsLab.Am.TrapContext
import OsLab.Lib.Run

/-! # Tasks and their registers

Any number of processors take turns with the tasks: an interrupt leaves the task in a context on its
own stack, the handler goes on below it, and the return resumes some task whose context is there.
No task notices: its registers and what it has on its stack change by its own instructions only.
The registers are those of a `Context`; `ds` and `es` are not among them.

A task and a handler write where they like, except in the stacks of other tasks; a handler leaves
alone what is above it, the context of the task that it has interrupted. `kmt` sees to it that a
task is not resumed while a processor is still in a handler on its stack. The stacks are large
enough. An interrupt comes between two instructions of a task, and is one with the `cli` of its
entry.
-/

namespace OsLab.Trap

open Trace

variable {χ τ : Type*}

/-- The stacks of the tasks. -/
structure Stacks (τ : Type*) where
  base : τ → ℕ
  top : τ → ℕ
  disjoint : ∀ {t t' : τ} {a : ℕ}, base t ≤ a → a < top t → base t' ≤ a → a < top t' → t = t'

/-- What a processor is at: a task, or a handler below the context at `p` of the task. -/
inductive Mode (τ : Type*)
  | running (t : τ)
  | handling (t : τ) (p : ℕ)

/-- Whose stack the processor is on. -/
def Mode.task : Mode τ → τ
  | .running t => t
  | .handling t _ => t

/-- The registers as a context. -/
def Cpu.context (c : Cpu) : Context := ⟨c.cr3, c.regs, c.rsp0⟩

/-- The whole machine. `saved` is where the kernel has the context of a task. `view` and `stack` are
ghosts: what the task has in its registers and in memory, by its own instructions. -/
structure Sys (χ τ : Type*) where
  mem : ℕ → ℕ
  cpu : χ → Cpu
  mode : χ → Mode τ
  saved : τ → Option ℕ
  view : τ → Context
  stack : τ → ℕ → ℕ

/-- A task without an address space of its own (`cr3` is 0) runs in the one that is there. -/
def Agrees (v ctx : Context) : Prop :=
  ctx.regs = v.regs ∧ (v.cr3 ≠ 0 → ctx.cr3 = v.cr3 ∧ ctx.rsp0 = v.rsp0)

/-- What a task has in use of its stack: from `rsp` up, and in user mode, with an address space of
its own, from `rsp0` up. -/
def Context.InUse (v : Context) (a : ℕ) : Prop :=
  if v.regs.cpl = DPL_KERN then v.regs.rsp ≤ a else v.cr3 ≠ 0 ∧ v.rsp0 ≤ a

/-- Task `t` is running, or can be resumed. -/
def Sys.Alive (s : Sys χ τ) (t : τ) : Prop := (∃ c, s.mode c = .running t) ∨ ∃ p, s.saved t = some p

/-- Nothing is written to the stacks of other tasks than `t`, nor to its own from `b` on. -/
def Confined (S : Stacks τ) (t : τ) (b : ℕ) (mem mem' : ℕ → ℕ) : Prop :=
  ∀ u a, S.base u ≤ a → a < S.top u → (u ≠ t ∨ b ≤ a) → mem' a = mem a

inductive Action (χ τ : Type*)
  | code (c : χ)
  | handler (c : χ)
  | interrupt (c : χ) (v errcode : ℕ)
  | resume (c : χ) (t : τ)
  | create (t : τ) (entry arg : ℕ)
  | discard (t : τ)

variable [DecidableEq χ] [DecidableEq τ]

/-- `irq` has the addresses of the entries and `start` is the one of `__am_kcontext_start`. -/
inductive Step (S : Stacks τ) (irq : Option ℕ → ℕ) (start : ℕ) :
    Sys χ τ → Action χ τ → Sys χ τ → Prop
  | code {s : Sys χ τ} {c : χ} {t : τ} {cpu' : Cpu} {mem' : ℕ → ℕ} (hmode : s.mode c = .running t)
      (hmem : Confined S t (S.top t) s.mem mem') :
      Step S irq start s (.code c)
        { s with
          mem := mem'
          cpu := Function.update s.cpu c cpu'
          view := Function.update s.view t cpu'.context
          stack := Function.update s.stack t mem' }
  | handler {s : Sys χ τ} {c : χ} {t : τ} {p : ℕ} {cpu' : Cpu} {mem' : ℕ → ℕ}
      (hmode : s.mode c = .handling t p) (hmem : Confined S t p s.mem mem') :
      Step S irq start s (.handler c)
        { s with mem := mem', cpu := Function.update s.cpu c cpu' }
  | interrupt {s : Sys χ τ} {c : χ} {t : τ} {v errcode : ℕ} {m : Machine}
      (hmode : s.mode c = .running t) (hv : Handled v)
      (hroom : S.base t + sizeofFrame ≤ entryRsp (s.cpu c)) (htop : entryRsp (s.cpu c) ≤ S.top t)
      (hm : enter (idt irq v) v errcode ⟨s.cpu c, s.mem⟩ = m) :
      Step S irq start s (.interrupt c v errcode)
        { s with
          mem := m.mem
          cpu := Function.update s.cpu c m.cpu
          mode := Function.update s.mode c (.handling t (m.cpu.regs.gpr .rdi))
          saved := Function.update s.saved t (some (m.cpu.regs.gpr .rdi)) }
  | resume {s : Sys χ τ} {c : χ} {t u : τ} {p q : ℕ} {m : Machine}
      (hmode : s.mode c = .handling t p) (hsaved : s.saved u = some q)
      (hfree : ∀ c' r, c' ≠ c → s.mode c' ≠ .handling u r)
      (hm : returnTo q ⟨s.cpu c, s.mem⟩ = m) :
      Step S irq start s (.resume c u)
        { s with
          mem := m.mem
          cpu := Function.update s.cpu c m.cpu
          mode := Function.update s.mode c (.running u)
          saved := Function.update s.saved u none }
  | create {s : Sys χ τ} {t : τ} {entry arg : ℕ} (hnew : ∀ c, (s.mode c).task ≠ t)
      (hroom : S.base t + sizeofContext ≤ S.top t) :
      Step S irq start s (.create t entry arg)
        { s with
          mem := (kcontext start (S.top t) entry arg s.mem).2
          saved := Function.update s.saved t (some (kcontext start (S.top t) entry arg s.mem).1)
          view := Function.update s.view t ⟨0, startRegs start (S.top t) entry arg, 0⟩ }
  | discard {s : Sys χ τ} {t : τ} (hold : ∀ c, (s.mode c).task ≠ t) :
      Step S irq start s (.discard t) { s with saved := Function.update s.saved t none }

/-- Every processor runs a task of its own, and there are no others. -/
structure Start (s : Sys χ τ) : Prop where
  running : ∀ c, ∃ t, s.mode c = .running t ∧ s.view t = (s.cpu c).context
  one : ∀ c c', (s.mode c).task = (s.mode c').task → c = c'
  saved : ∀ t, s.saved t = none
  stack : ∀ t, s.stack t = s.mem

/-- No task is on two processors. The one that a processor runs finds its registers in it, and
that of the others are in their contexts, which lie in their stacks, below what is in use there.
What is in use is as the task has left it. -/
structure SwitchSound (S : Stacks τ) (s : Sys χ τ) : Prop where
  one : ∀ c c', (s.mode c).task = (s.mode c').task → c = c'
  running : ∀ c t, s.mode c = .running t → s.saved t = none ∧ Agrees (s.view t) (s.cpu c).context
  handling : ∀ c t p, s.mode c = .handling t p → s.saved t = some p
  saved : ∀ t p, s.saved t = some p → S.base t ≤ p ∧ p + sizeofContext ≤ S.top t ∧
    Agrees (s.view t) (loadContext s.mem p) ∧ ∀ a, (s.view t).InUse a → p + sizeofContext ≤ a
  stack : ∀ t a, s.Alive t → S.base t ≤ a → a < S.top t → (s.view t).InUse a →
    s.mem a = s.stack t a

/-! ## Steps -/

/-- An interrupt pushes below what is in use. -/
theorem entryRsp_le {v : Context} {c : Cpu} {a : ℕ} (h : Agrees v c.context) (ha : v.InUse a) :
    entryRsp c ≤ a := by
  have hregs : c.regs = v.regs := h.1
  unfold Context.InUse at ha
  unfold entryRsp
  rw [hregs]
  by_cases hkern : v.regs.cpl = DPL_KERN
  · rw [if_pos hkern] at ha ⊢
    exact (Nat.div_mul_le_self _ _).trans ha
  · rw [if_neg hkern] at ha ⊢
    have hrsp0 : c.rsp0 = v.rsp0 := (h.2 ha.1).2
    rw [hrsp0]
    exact (Nat.div_mul_le_self _ _).trans ha.2

theorem loadContext_congr {mem mem' : ℕ → ℕ} {p : ℕ}
    (h : ∀ a, p ≤ a → a < p + sizeofContext → mem' a = mem a) :
    loadContext mem' p = loadContext mem p := by
  unfold sizeofContext at h
  have hgpr : (fun r : Reg => mem' (p + r.offset)) = fun r : Reg => mem (p + r.offset) := by
    funext r
    have hoff := offset_le r
    exact h _ (by omega) (by omega)
  refine Context.ext (h p (by omega) (by omega)) (Regs.ext hgpr ?_ ?_ ?_ ?_ ?_) ?_
  · exact h (p + 128) (by omega) (by omega)
  · exact h (p + 136) (by omega) (by omega)
  · exact h (p + 144) (by omega) (by omega)
  · exact h (p + 152) (by omega) (by omega)
  · exact h (p + 160) (by omega) (by omega)
  · exact h (p + 168) (by omega) (by omega)

/-- Who is saved after the context of `t` was taken away was saved before. -/
theorem eq_some_of_update_none {f : τ → Option ℕ} {t u : τ} {q : ℕ}
    (h : Function.update f t none u = some q) : u ≠ t ∧ f u = some q := by
  have hut : u ≠ t := by
    rintro rfl
    rw [Function.update_self] at h
    cases h
  exact ⟨hut, by rwa [Function.update_of_ne hut] at h⟩

section Steps

variable {S : Stacks τ} {irq : Option ℕ → ℕ} {start : ℕ} {s s' : Sys χ τ} {e : Action χ τ}

omit [DecidableEq χ] [DecidableEq τ] in
/-- A saved context stays when nothing is written to it. -/
theorem SwitchSound.keep_saved (h : SwitchSound S s) {mem' : ℕ → ℕ} {t : τ} {p : ℕ}
    (ht : s.saved t = some p)
    (hmem : ∀ a, S.base t ≤ a → a < S.top t → p ≤ a → mem' a = s.mem a) :
    S.base t ≤ p ∧ p + sizeofContext ≤ S.top t ∧ Agrees (s.view t) (loadContext mem' p) ∧
      ∀ a, (s.view t).InUse a → p + sizeofContext ≤ a := by
  obtain ⟨hlo, hhi, hagree, huse⟩ := h.saved t p ht
  refine ⟨hlo, hhi, ?_, huse⟩
  rw [loadContext_congr fun a ha ha' => hmem a (hlo.trans ha) (by omega) ha]
  exact hagree

theorem SwitchSound.code (h : SwitchSound S s) {c : χ} {t : τ} {cpu' : Cpu} {mem' : ℕ → ℕ}
    (hmode : s.mode c = .running t) (hmem : Confined S t (S.top t) s.mem mem') :
    SwitchSound S { s with
      mem := mem'
      cpu := Function.update s.cpu c cpu'
      view := Function.update s.view t cpu'.context
      stack := Function.update s.stack t mem' } := by
  refine ⟨h.one, fun c' u hu => ?_, h.handling, fun u p hu => ?_, fun u a hu hlo hhi huse => ?_⟩
  · obtain ⟨hsaved, hagree⟩ := h.running c' u hu
    refine ⟨hsaved, ?_⟩
    by_cases hc : c' = c
    · subst hc
      have hut : t = u := Mode.running.inj (hmode.symm.trans hu)
      subst hut
      simp only [Function.update_self]
      exact ⟨rfl, fun _ => ⟨rfl, rfl⟩⟩
    · have hut : u ≠ t := by
        rintro rfl
        exact hc (h.one c' c (by rw [hu, hmode]))
      simp only [Function.update_of_ne hc, Function.update_of_ne hut]
      exact hagree
  · have hut : u ≠ t := by
      rintro rfl
      have hnone := (h.running c u hmode).1
      rw [hnone] at hu
      cases hu
    simp only [Function.update_of_ne hut]
    exact h.keep_saved hu fun a ha ha' _ => hmem u a ha ha' (Or.inl hut)
  · by_cases hut : u = t
    · subst hut
      simp only [Function.update_self]
    · simp only [Function.update_of_ne hut] at huse ⊢
      rw [hmem u a hlo hhi (Or.inl hut)]
      exact h.stack u a hu hlo hhi huse

theorem SwitchSound.handler (h : SwitchSound S s) {c : χ} {t : τ} {p : ℕ} {cpu' : Cpu}
    {mem' : ℕ → ℕ} (hmode : s.mode c = .handling t p) (hmem : Confined S t p s.mem mem') :
    SwitchSound S { s with mem := mem', cpu := Function.update s.cpu c cpu' } := by
  refine ⟨h.one, fun c' u hu => ?_, h.handling, fun u q hu => ?_, fun u a hu hlo hhi huse => ?_⟩
  · have hc : c' ≠ c := by
      rintro rfl
      rw [hmode] at hu
      cases hu
    simp only [Function.update_of_ne hc]
    exact h.running c' u hu
  · refine h.keep_saved hu fun a ha ha' hqa => hmem u a ha ha' ?_
    by_cases hut : u = t
    · subst hut
      have hpq : p = q := Option.some.inj ((h.handling c u p hmode).symm.trans hu)
      exact Or.inr (hpq ▸ hqa)
    · exact Or.inl hut
  · simp only
    rw [hmem u a hlo hhi, h.stack u a hu hlo hhi huse]
    by_cases hut : u = t
    · subst hut
      have habove := (h.saved u p (h.handling c u p hmode)).2.2.2 a huse
      exact Or.inr (by omega)
    · exact Or.inl hut

theorem SwitchSound.interrupt (h : SwitchSound S s) {c : χ} {t : τ} {v errcode : ℕ} {m : Machine}
    (hmode : s.mode c = .running t) (hv : Handled v)
    (hroom : S.base t + sizeofFrame ≤ entryRsp (s.cpu c)) (htop : entryRsp (s.cpu c) ≤ S.top t)
    (hm : enter (idt irq v) v errcode ⟨s.cpu c, s.mem⟩ = m) :
    SwitchSound S { s with
      mem := m.mem
      cpu := Function.update s.cpu c m.cpu
      mode := Function.update s.mode c (.handling t (m.cpu.regs.gpr .rdi))
      saved := Function.update s.saved t (some (m.cpu.regs.gpr .rdi)) } := by
  have hent := enter_spec (m := ⟨s.cpu c, s.mem⟩) (idt irq v) errcode hv
    (Nat.le_trans (Nat.le_add_left _ _) hroom)
  rw [hm] at hent
  have hp := hent.rdi
  generalize m.cpu.regs.gpr .rdi = p at hp
  simp only at hp hent
  have hlo : S.base t ≤ p := by omega
  have hhi : p + sizeofFrame ≤ S.top t := by omega
  have hother (u : τ) (hu : u ≠ t) (a : ℕ) (ha : S.base u ≤ a) (ha' : a < S.top u) :
      m.mem a = s.mem a := by
    refine hent.outside a ?_
    by_contra hin
    exact hu (S.disjoint ha ha' (by omega) (by omega))
  have htask (c' : χ) : (Function.update s.mode c (.handling t p) c').task = (s.mode c').task := by
    by_cases hc : c' = c
    · subst hc
      rw [Function.update_self, hmode]
      rfl
    · rw [Function.update_of_ne hc]
  have hagree := (h.running c t hmode).2
  -- the frame is pushed below what `t` uses, and in no other stack
  refine ⟨fun c' c'' heq => ?_, fun c' u hu => ?_, fun c' u q hu => ?_, fun u q hu => ?_,
    fun u a hu hlo' hhi' huse => ?_⟩
  · exact h.one c' c'' (by rwa [htask, htask] at heq)
  · have hc : c' ≠ c := by
      rintro rfl
      simp only [Function.update_self] at hu
      cases hu
    simp only [Function.update_of_ne hc] at hu ⊢
    have hut : u ≠ t := by
      rintro rfl
      exact hc (h.one c' c (by rw [hu, hmode]))
    rw [Function.update_of_ne hut]
    exact h.running c' u hu
  · by_cases hc : c' = c
    · subst hc
      simp only [Function.update_self] at hu
      cases hu
      exact Function.update_self _ _ _
    · simp only [Function.update_of_ne hc] at hu
      have hut : u ≠ t := by
        rintro rfl
        exact hc (h.one c' c (by rw [hu, hmode]; rfl))
      simp only [Function.update_of_ne hut]
      exact h.handling c' u q hu
  · by_cases hut : u = t
    · subst hut
      simp only [Function.update_self] at hu
      cases hu
      have hsize : sizeofContext ≤ sizeofFrame := by decide
      refine ⟨hlo, by omega, ?_, fun a huse => ?_⟩
      · have hctx := hent.context
        rw [← hp] at hctx
        show Agrees (s.view u) (loadContext m.mem p)
        rw [hctx]
        exact hagree
      · have habove := entryRsp_le hagree huse
        omega
    · simp only [Function.update_of_ne hut] at hu
      exact h.keep_saved hu fun a ha ha' _ => hother u hut a ha ha'
  · by_cases hut : u = t
    · subst hut
      have habove := entryRsp_le hagree huse
      have hkeep : m.mem a = s.mem a := hent.outside a (Or.inr (by omega))
      exact hkeep.trans (h.stack u a (Or.inl ⟨c, hmode⟩) hlo' hhi' huse)
    · have halive : s.Alive u := by
        rcases hu with ⟨c', hc'⟩ | ⟨q, hq⟩
        · have hc : c' ≠ c := by
            rintro rfl
            simp only [Function.update_self] at hc'
            cases hc'
          simp only [Function.update_of_ne hc] at hc'
          exact Or.inl ⟨c', hc'⟩
        · simp only [Function.update_of_ne hut] at hq
          exact Or.inr ⟨q, hq⟩
      exact (hother u hut a hlo' hhi').trans (h.stack u a halive hlo' hhi' huse)

theorem SwitchSound.resume (h : SwitchSound S s) {c : χ} {t u : τ} {p q : ℕ} {m : Machine}
    (hmode : s.mode c = .handling t p) (hsaved : s.saved u = some q)
    (hfree : ∀ c' r, c' ≠ c → s.mode c' ≠ .handling u r)
    (hm : returnTo q ⟨s.cpu c, s.mem⟩ = m) :
    SwitchSound S { s with
      mem := m.mem
      cpu := Function.update s.cpu c m.cpu
      mode := Function.update s.mode c (.running u)
      saved := Function.update s.saved u none } := by
  have hret := returnTo_spec q ⟨s.cpu c, s.mem⟩
  rw [hm] at hret
  obtain ⟨-, -, hagree, -⟩ := h.saved u q hsaved
  -- no other processor has the task
  have hothers (c' : χ) (hc : c' ≠ c) : (s.mode c').task ≠ u := by
    intro htask
    cases hmode' : s.mode c' with
    | running w =>
        rw [hmode'] at htask
        have hnone := (h.running c' w hmode').1
        rw [show w = u from htask, hsaved] at hnone
        cases hnone
    | handling w r =>
        rw [hmode'] at htask
        exact hfree c' r hc (by rw [hmode', show w = u from htask])
  refine ⟨fun c' c'' heq => ?_, fun c' w hw => ?_, fun c' w r hw => ?_, fun w r hw => ?_,
    fun w a hw hlo hhi huse => ?_⟩
  · by_cases hc : c' = c <;> by_cases hc' : c'' = c
    · rw [hc, hc']
    · rw [hc] at heq
      simp only [Function.update_self, Function.update_of_ne hc'] at heq
      exact absurd heq.symm (hothers c'' hc')
    · rw [hc'] at heq
      simp only [Function.update_self, Function.update_of_ne hc] at heq
      exact absurd heq (hothers c' hc)
    · simp only [Function.update_of_ne hc, Function.update_of_ne hc'] at heq
      exact h.one c' c'' heq
  · by_cases hc : c' = c
    · subst hc
      simp only [Function.update_self] at hw ⊢
      cases hw
      refine ⟨Function.update_self _ _ _, hret.regs.trans hagree.1, fun hcr3 => ?_⟩
      obtain ⟨h3, h0⟩ := hagree.2 hcr3
      have hne : s.mem q ≠ 0 := fun hz => hcr3 (h3.symm.trans hz)
      exact ⟨(hret.space hne).1.trans h3, (hret.space hne).2.trans h0⟩
    · simp only [Function.update_of_ne hc] at hw ⊢
      have hwu : w ≠ u := fun heq => hothers c' hc (by rw [hw]; exact heq)
      rw [Function.update_of_ne hwu]
      exact h.running c' w hw
  · have hc : c' ≠ c := by
      rintro rfl
      simp only [Function.update_self] at hw
      cases hw
    simp only [Function.update_of_ne hc] at hw
    have hwu : w ≠ u := fun heq => hothers c' hc (by rw [hw]; exact heq)
    simp only [Function.update_of_ne hwu]
    exact h.handling c' w r hw
  · rw [hret.mem]
    exact h.saved w r (eq_some_of_update_none hw).2
  · have halive : s.Alive w := by
      rcases hw with ⟨c', hc'⟩ | ⟨r, hr⟩
      · by_cases hc : c' = c
        · subst hc
          simp only [Function.update_self] at hc'
          cases hc'
          exact Or.inr ⟨q, hsaved⟩
        · simp only [Function.update_of_ne hc] at hc'
          exact Or.inl ⟨c', hc'⟩
      · exact Or.inr ⟨r, (eq_some_of_update_none hr).2⟩
    exact (congrFun hret.mem a).trans (h.stack w a halive hlo hhi huse)

omit [DecidableEq χ] in
theorem SwitchSound.create (h : SwitchSound S s) {t : τ} {entry arg : ℕ}
    (hnew : ∀ c, (s.mode c).task ≠ t) (hroom : S.base t + sizeofContext ≤ S.top t) :
    SwitchSound S { s with
      mem := (kcontext start (S.top t) entry arg s.mem).2
      saved := Function.update s.saved t (some (kcontext start (S.top t) entry arg s.mem).1)
      view := Function.update s.view t ⟨0, startRegs start (S.top t) entry arg, 0⟩ } := by
  obtain ⟨hp, hload, hout⟩ := kcontext_spec start entry arg s.mem
    (Nat.le_trans (Nat.le_add_left _ _) hroom)
  -- of the new stack nothing is in use
  have hnone (a : ℕ) (huse : Context.InUse ⟨0, startRegs start (S.top t) entry arg, 0⟩ a) :
      S.top t ≤ a := by
    have hkern : (startRegs start (S.top t) entry arg).cpl = DPL_KERN :=
      show KSEL SEG_KCODE % 4 = DPL_KERN by decide
    unfold Context.InUse at huse
    rw [if_pos hkern] at huse
    exact huse
  refine ⟨h.one, fun c u hu => ?_, fun c u q hu => ?_, fun u q hu => ?_,
    fun u a hu hlo hhi huse => ?_⟩
  · have hut : u ≠ t := fun heq => hnew c (by rw [hu]; exact heq)
    simp only [Function.update_of_ne hut]
    exact h.running c u hu
  · have hut : u ≠ t := fun heq => hnew c (by rw [hu]; exact heq)
    simp only [Function.update_of_ne hut]
    exact h.handling c u q hu
  · by_cases hut : u = t
    · subst hut
      simp only [Function.update_self] at hu ⊢
      have hq : q = S.top u - sizeofContext := (Option.some.inj hu).symm.trans hp
      rw [hq, hload]
      refine ⟨by omega, by omega, ⟨rfl, fun hz => absurd rfl hz⟩, fun a huse => ?_⟩
      have habove := hnone a huse
      omega
    · simp only [Function.update_of_ne hut] at hu ⊢
      refine h.keep_saved hu fun a ha ha' _ => hout a ?_
      by_contra hin
      exact hut (S.disjoint ha ha' (by omega) (by omega))
  · by_cases hut : u = t
    · subst hut
      simp only [Function.update_self] at huse
      exact absurd hhi (Nat.not_lt.2 (hnone a huse))
    · simp only [Function.update_of_ne hut] at huse
      have hkeep : (kcontext start (S.top t) entry arg s.mem).2 a = s.mem a := by
        refine hout a ?_
        by_contra hin
        exact hut (S.disjoint hlo hhi (by omega) (by omega))
      have halive : s.Alive u := by
        rcases hu with hu | ⟨q, hq⟩
        · exact Or.inl hu
        · simp only [Function.update_of_ne hut] at hq
          exact Or.inr ⟨q, hq⟩
      exact hkeep.trans (h.stack u a halive hlo hhi huse)

omit [DecidableEq χ] in
theorem SwitchSound.discard (h : SwitchSound S s) {t : τ} (hold : ∀ c, (s.mode c).task ≠ t) :
    SwitchSound S { s with saved := Function.update s.saved t none } := by
  refine ⟨h.one, fun c u hu => ?_, fun c u q hu => ?_, fun u q hu => ?_,
    fun u a hu hlo hhi huse => ?_⟩
  · have hut : u ≠ t := fun heq => hold c (by rw [hu]; exact heq)
    simp only [Function.update_of_ne hut]
    exact h.running c u hu
  · have hut : u ≠ t := fun heq => hold c (by rw [hu]; exact heq)
    simp only [Function.update_of_ne hut]
    exact h.handling c u q hu
  · exact h.saved u q (eq_some_of_update_none hu).2
  · refine h.stack u a ?_ hlo hhi huse
    rcases hu with hu | ⟨q, hq⟩
    · exact Or.inl hu
    · exact Or.inr ⟨q, (eq_some_of_update_none hq).2⟩

theorem SwitchSound.step (h : SwitchSound S s) (hstep : Step S irq start s e s') :
    SwitchSound S s' := by
  cases hstep with
  | code hmode hmem => exact h.code hmode hmem
  | handler hmode hmem => exact h.handler hmode hmem
  | interrupt hmode hv hroom htop hm => exact h.interrupt hmode hv hroom htop hm
  | resume hmode hsaved hfree hm => exact h.resume hmode hsaved hfree hm
  | create hnew hroom => exact h.create hnew hroom
  | discard hold => exact h.discard hold

omit [DecidableEq χ] [DecidableEq τ] in
theorem Start.sound (hs : Start s) : SwitchSound S s := by
  refine ⟨hs.one, fun c t hc => ⟨hs.saved t, ?_⟩, fun c t p hc => ?_, fun t p ht => ?_,
    fun t a _ _ _ _ => (congrFun (hs.stack t) a).symm⟩
  · rcases hs.running c with ⟨u, hu, hview⟩
    have hut : u = t := Mode.running.inj (hu.symm.trans hc)
    rw [← hut, hview]
    exact ⟨rfl, fun _ => ⟨rfl, rfl⟩⟩
  · rcases hs.running c with ⟨u, hu, -⟩
    rw [hu] at hc
    cases hc
  · rw [hs.saved t] at ht
    cases ht

end Steps

/-! ## Runs -/

/-- In every run each task finds its own registers and its stack: whatever interrupts come in between
and whichever processors take it up, they are as its own instructions have left them. -/
theorem registersSound_of_run {S : Stacks τ} {irq : Option ℕ → ℕ} {start : ℕ}
    {h : List (Sys χ τ × Action χ τ)} {s : Sys χ τ} (hr : Run Start (Step S irq start) h s) :
    SwitchSound S s :=
  hr.invariant (fun _ hs => hs.sound) fun _ _ _ hI hstep => hI.step hstep

/-- A task that has been created and has not run an instruction yet begins, on whichever processor
it is resumed, with `entry(arg)`; when `entry` returns, it panics. -/
theorem newTask_of_run {S : Stacks τ} {irq : Option ℕ → ℕ} {start : ℕ}
    {h : List (Sys χ τ × Action χ τ)} {s : Sys χ τ} (hr : Run Start (Step S irq start) h s) {c : χ}
    {t : τ} {entry arg : ℕ} (hmode : s.mode c = .running t)
    (hview : s.view t = ⟨0, startRegs start (S.top t) entry arg, 0⟩) (panicOnReturn : ℕ) :
    (s.cpu c).regs.rip = start ∧
      ∃ m, Machine.run ⟨s.cpu c, s.mem⟩ (amKcontextStart panicOnReturn) = m ∧
        m.cpu.regs.rip = entry ∧ m.cpu.regs.gpr .rdi = arg ∧ m.cpu.regs.rflags &&& FL_IF ≠ 0 ∧
        m.mem m.cpu.regs.rsp = panicOnReturn := by
  have hsound : SwitchSound S s := hr.invariant (fun _ hs => hs.sound) fun _ _ _ hI hst => hI.step hst
  have hregs : (s.cpu c).regs = startRegs start (S.top t) entry arg := by
    have hagree := (hsound.running c t hmode).2.1
    rw [hview] at hagree
    exact hagree
  obtain ⟨hrun, hmem⟩ := kcontextStart_run (m := ⟨s.cpu c, s.mem⟩) hregs panicOnReturn
  have hflag : FL_IF &&& FL_IF ≠ 0 := by decide
  refine ⟨by rw [hregs]; rfl, _, rfl, by rw [hrun], by rw [hrun]; rfl, by rw [hrun]; exact hflag, ?_⟩
  rw [hrun, hmem]
  exact Function.update_self _ _ _

/-! ## A run -/

section Example

/-- Two stacks of 4096 bytes. -/
def twoStacks : Stacks (Fin 2) where
  base t := 0x100000 + 0x1000 * t.val
  top t := 0x101000 + 0x1000 * t.val
  disjoint := by
    intro t t' a h1 h2 h3 h4
    exact Fin.ext (by omega)

/-- A processor in the task 0. -/
def oneCpu : Sys (Fin 1) (Fin 2) where
  mem _ := 0
  cpu _ := ⟨⟨fun _ => 7, 0x200000, KSEL SEG_KCODE, FL_IF, 0x100ff0, 0⟩, 0, 0, 0x1000, 0⟩
  mode _ := .running 0
  saved _ := none
  view _ := ⟨0x1000, ⟨fun _ => 7, 0x200000, KSEL SEG_KCODE, FL_IF, 0x100ff0, 0⟩, 0⟩
  stack _ _ := 0

theorem start_oneCpu : Start oneCpu :=
  ⟨fun _ => ⟨0, rfl, rfl⟩, fun c c' _ => Subsingleton.elim c c', fun _ => rfl, fun _ => rfl⟩

/-- The timer interrupts the task 0, and the task 1, which is new, is resumed. -/
theorem exists_run_two_tasks (irq : Option ℕ → ℕ) (start entry arg : ℕ) : ∃ h s,
    Run Start (Step twoStacks irq start) h s ∧ s.mode (0 : Fin 1) = .running (1 : Fin 2) ∧
      s.view 1 = ⟨0, startRegs start (twoStacks.top 1) entry arg, 0⟩ ∧
      (∃ p, s.saved 0 = some p) := by
  have hne : (1 : Fin 2) ≠ 0 := by decide
  have hnew (c : Fin 1) : (oneCpu.mode c).task ≠ 1 := hne.symm
  have hroom : twoStacks.base 0 + sizeofFrame ≤ entryRsp (oneCpu.cpu 0) := by decide
  have htop : entryRsp (oneCpu.cpu 0) ≤ twoStacks.top 0 := by decide
  -- the new task
  obtain ⟨h₁, s₁, hr₁, hmode₁, hcpu₁, hsaved₁, hview₁⟩ : ∃ (h₁ : _) (s₁ : Sys (Fin 1) (Fin 2)),
      Run Start (Step twoStacks irq start) h₁ s₁ ∧ s₁.mode = oneCpu.mode ∧ s₁.cpu = oneCpu.cpu ∧
        (∃ q, s₁.saved 1 = some q) ∧
        s₁.view 1 = ⟨0, startRegs start (twoStacks.top 1) entry arg, 0⟩ := by
    have hstep : Step twoStacks irq start oneCpu (.create 1 entry arg) _ :=
      .create hnew (by decide)
    exact ⟨_, _, (Run.start start_oneCpu).snoc hstep, rfl, rfl,
      ⟨_, Function.update_self (1 : Fin 2) _ oneCpu.saved⟩,
      Function.update_self (1 : Fin 2) _ oneCpu.view⟩
  -- the timer
  rw [← hcpu₁] at hroom htop
  obtain ⟨h₂, s₂, hr₂, ⟨p, hmode₂, hold₂⟩, hsaved₂, hview₂⟩ : ∃ (h₂ : _) (s₂ : Sys (Fin 1) (Fin 2)),
      Run Start (Step twoStacks irq start) h₂ s₂ ∧
        (∃ p, s₂.mode 0 = .handling 0 p ∧ s₂.saved 0 = some p) ∧ (∃ q, s₂.saved 1 = some q) ∧
        s₂.view = s₁.view := by
    obtain ⟨m, hm⟩ : ∃ m, enter (idt irq 32) 32 0 ⟨s₁.cpu 0, s₁.mem⟩ = m := ⟨_, rfl⟩
    have hr := hr₁.snoc (.interrupt (t := 0) (by rw [hmode₁]; rfl) (by decide) hroom htop hm)
    refine ⟨_, _, hr, ⟨_, Function.update_self (0 : Fin 1) _ s₁.mode,
      Function.update_self (0 : Fin 2) _ s₁.saved⟩, ?_, rfl⟩
    rcases hsaved₁ with ⟨q, hq⟩
    exact ⟨q, (Function.update_of_ne hne (some (m.cpu.regs.gpr .rdi)) s₁.saved).trans hq⟩
  -- the return
  rcases hsaved₂ with ⟨q, hq⟩
  have hr₃ := hr₂.snoc (.resume hmode₂ hq (fun c' _ hc => absurd (Subsingleton.elim c' 0) hc) rfl)
  refine ⟨_, _, hr₃, Function.update_self (0 : Fin 1) _ s₂.mode, ?_, p, ?_⟩
  · exact (congrFun hview₂ 1).trans hview₁
  · exact (Function.update_of_ne hne.symm none s₂.saved).trans hold₂

theorem registersSound_two_tasks : ∃ h, ∃ s : Sys (Fin 1) (Fin 2),
    Run Start (Step twoStacks (fun _ => 0) 0x400000) h s ∧ s.mode 0 = .running 1 ∧
      (∃ p, s.saved 0 = some p) ∧ SwitchSound twoStacks s := by
  rcases exists_run_two_tasks (fun _ => 0) 0x400000 0x300000 5 with ⟨h, s, hr, hmode, -, hsaved⟩
  exact ⟨h, s, hr, hmode, hsaved, registersSound_of_run hr⟩

theorem newTask_two_tasks : ∃ h, ∃ s : Sys (Fin 1) (Fin 2), ∃ m,
    Run Start (Step twoStacks (fun _ => 0) 0x400000) h s ∧ s.mode 0 = .running 1 ∧
      Machine.run ⟨s.cpu 0, s.mem⟩ (amKcontextStart 0x500000) = m ∧
      m.cpu.regs.rip = 0x300000 ∧ m.cpu.regs.gpr .rdi = 5 := by
  rcases exists_run_two_tasks (fun _ => 0) 0x400000 0x300000 5 with ⟨h, s, hr, hmode, hview, -⟩
  obtain ⟨-, m, hm, hrip, hrdi, -⟩ := newTask_of_run hr hmode hview 0x500000
  exact ⟨h, s, m, hr, hmode, hm, hrip, hrdi⟩

end Example

end OsLab.Trap
