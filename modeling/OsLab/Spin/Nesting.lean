import OsLab.Spin.Basic

/-! # Nested spinlocks mask and restore interrupts

`CtxOk` says, for each statement of an operation, how the count and the flags of the CPU
stand to the spinlocks of the context that runs there. Where the interrupt flag is set
the context has no spinlock, so that what a trap saves does not depend on the
CPU: it fits every CPU whose count is 0.
-/

namespace OsLab

open Trace

section Context

variable {L : Type*} {cpu cpu' : NestCpu} {x x' : SpinCtx L}

/-- The interrupt flag of a context where no operation has turned it off. -/
def SpinCtx.flag (x : SpinCtx L) : Bool := if x.held = 0 then x.before else false

theorem SpinCtx.flag_of_pos (h : 0 < x.held) : x.flag = false := if_neg (Nat.ne_of_gt h)

theorem SpinCtx.flag_of_zero (h : x.held = 0) : x.flag = x.before := if_pos h

/-- The statement belongs to the operation under way. -/
def SpinCtx.InOp (x : SpinCtx L) : Prop :=
  match x.pc with
  | .idle => True
  | .readFlag _ | .maskFlag _ _ | .saveFlag _ _ | .nest _ | .spin _ =>
      (∃ lk, x.op = some (.spinLock lk)) ∧ 0 < x.depth
  | .release _ | .checkFlag | .checkNest | .unnest | .restoreFlag =>
      (∃ lk, x.op = some (.spinUnlock lk)) ∧ 0 < x.depth
  | .pmmRead | .pmmMask _ | .pmmBody _ | .pmmRestore _ => ∀ lk, x.op ≠ some (.spinUnlock lk)

/-- The context fits the CPU it runs on. -/
structure CtxOk (cpu : NestCpu) (x : SpinCtx L) : Prop where
  inOp : x.InOp
  enable : 0 < x.held → cpu.iEnable = x.before
  flags : match x.pc with
    | .idle | .readFlag _ | .pmmRead => cpu.iNestNum = x.held ∧ cpu.intr = x.flag
    | .maskFlag _ old | .pmmMask old =>
        cpu.iNestNum = x.held ∧ cpu.intr = x.flag ∧ old = x.flag
    | .saveFlag _ old | .pmmBody old | .pmmRestore old =>
        cpu.iNestNum = x.held ∧ cpu.intr = false ∧ old = x.flag
    | .nest _ => cpu.iNestNum = x.held ∧ cpu.intr = false ∧ cpu.iEnable = x.before
    | .spin _ | .release _ => cpu.iNestNum = x.held ∧ cpu.intr = false ∧ 0 < x.held
    -- the lock is given back, but still counted in `i_nest_num`
    | .checkFlag | .checkNest | .unnest =>
        cpu.iNestNum = x.held + 1 ∧ cpu.intr = false ∧ cpu.iEnable = x.before
    | .restoreFlag => cpu.iNestNum = x.held ∧ cpu.intr = false ∧ cpu.iEnable = x.before

/-- A saved context fits every CPU whose count is 0. -/
def SavedOk (x : SpinCtx L) (flag : Bool) : Prop := ∀ enable, CtxOk ⟨0, enable, flag⟩ x

theorem fresh_ok (handler flag enable : Bool) :
    CtxOk ⟨0, enable, flag⟩ (.fresh handler flag : SpinCtx L) where
  inOp := trivial
  enable hpos := by cases hpos
  flags := ⟨rfl, rfl⟩

/-- Whoever holds a spinlock has interrupts off. -/
theorem CtxOk.masked (h : CtxOk cpu x) (hpos : 0 < x.held) : cpu.intr = false := by
  have hflag := x.flag_of_pos hpos
  have h := h.flags
  cases hpc : x.pc <;> rw [hpc] at h <;> simp only at h
  case idle | readFlag | pmmRead => exact h.2.trans hflag
  case maskFlag | pmmMask => exact h.2.1.trans hflag
  all_goals exact h.2.1

/-- While `i_nest_num` is positive, interrupts are off. -/
theorem CtxOk.masked_of_nest (h : CtxOk cpu x) (hpos : 0 < cpu.iNestNum) : cpu.intr = false := by
  by_cases hd : 0 < x.held
  · exact h.masked hd
  · -- a count without a spinlock: the context is in `interrupt_on`
    have h := h.flags
    cases hpc : x.pc <;> rw [hpc] at h <;> simp only at h
    case checkFlag | checkNest | unnest => exact h.2.1
    all_goals omega

/-- With interrupts on, the context is between two operations or has not yet turned them off: what
a trap saves fits every CPU. -/
theorem CtxOk.saved (h : CtxOk cpu x) (hintr : cpu.intr = true) :
    cpu.iNestNum = 0 ∧ x.held = 0 ∧ SavedOk x cpu.intr := by
  have hd : x.held = 0 := by
    by_contra hne
    rw [h.masked (Nat.pos_of_ne_zero hne)] at hintr
    cases hintr
  have hon : cpu.intr ≠ false := by
    rw [hintr]
    decide
  have hf := h.flags
  have hzero : cpu.iNestNum = 0 := by
    cases hpc : x.pc <;> rw [hpc] at hf <;> simp only at hf
    case idle | readFlag | pmmRead | maskFlag | pmmMask => exact hf.1.trans (by rw [hd]; rfl)
    all_goals exact absurd hf.2.1 hon
  refine ⟨hzero, hd, fun enable => ⟨h.inOp, fun hpos => absurd hd (Nat.ne_of_gt hpos), ?_⟩⟩
  rw [hzero] at hf
  cases hpc : x.pc <;> rw [hpc] at hf <;> simp only at hf ⊢
  case idle | readFlag | pmmRead | maskFlag | pmmMask => exact hf
  all_goals exact absurd hf.2.1 hon

/-- A `yield` outside any spinlock. -/
theorem CtxOk.saved_idle (h : CtxOk cpu x) (hpc : x.pc = .idle) (hd : x.depth = 0) :
    cpu.iNestNum = 0 ∧ x.held = 0 ∧ SavedOk x cpu.intr := by
  have hheld : x.held = 0 := by
    unfold SpinCtx.held
    rw [hpc]
    exact hd
  have hf := h.flags
  rw [hpc] at hf
  simp only at hf
  have hzero : cpu.iNestNum = 0 := hf.1.trans (by rw [hheld]; rfl)
  refine ⟨hzero, hheld, fun enable => ⟨h.inOp, fun hpos => absurd hheld (Nat.ne_of_gt hpos), ?_⟩⟩
  rw [hpc]
  exact ⟨by rw [hheld]; rfl, hf.2⟩

/-- The call of an operation. -/
theorem CtxOk.call (h : CtxOk cpu x) (hpc : x.pc = .idle) {op : SpinOp L}
    (hop : ∀ lk, op = .spinUnlock lk → 0 < x.depth) : CtxOk cpu (x.call cpu.intr op) := by
  rcases x with ⟨pc, xop, handler, depth, before⟩
  obtain rfl : pc = .idle := hpc
  obtain ⟨-, henable, hnest, hintr⟩ := h
  cases op with
  | spinLock lk =>
      refine ⟨⟨⟨lk, rfl⟩, Nat.succ_pos _⟩, ?_, hnest, ?_⟩
      · intro hpos
        have hd : depth ≠ 0 := Nat.ne_of_gt hpos
        exact (henable hpos).trans (if_neg hd).symm
      · by_cases hd : depth = 0
        · -- the outermost one
          subst hd
          rfl
        · exact (hintr.trans (if_neg hd)).trans (if_neg hd).symm
  | spinUnlock lk =>
      have hpos := hop lk rfl
      have hflag : SpinCtx.flag ⟨.idle, xop, handler, depth, before⟩ = false :=
        SpinCtx.flag_of_pos hpos
      exact ⟨⟨⟨lk, rfl⟩, hpos⟩, henable, hnest, hintr.trans hflag, hpos⟩
  | kalloc => exact ⟨nofun, henable, hnest, hintr⟩
  | kfree => exact ⟨nofun, henable, hnest, hintr⟩

/-- An operation other than `spin_unlock` returns. -/
theorem SpinCtx.ret_eq (h : ∀ lk, x.op ≠ some (.spinUnlock lk)) :
    x.ret = { x with pc := .idle, op := none } := by
  unfold SpinCtx.ret
  split
  · rename_i lk hop
    exact absurd hop (h lk)
  · rfl

/-- The next statement of an operation. -/
theorem CtxOk.opStep [DecidableEq L] {word word' : L → ℕ} {pc' : SpinPc L} (h : CtxOk cpu x)
    (hst : opStep cpu word x.pc = some (cpu', word', pc')) : CtxOk cpu' (x.goTo pc') := by
  rcases x with ⟨pc, op, handler, depth, before⟩
  obtain ⟨hop, henable, h⟩ := h
  cases pc with
  | idle => cases hst
  | readFlag lk =>
      cases hst
      exact ⟨hop, henable, h.1, h.2, h.2⟩
  | maskFlag lk old =>
      cases hst
      exact ⟨hop, henable, h.1, rfl, h.2.2⟩
  | saveFlag lk old =>
      cases hst
      obtain ⟨hnest, hintr, hold⟩ := h
      -- only the outermost lock writes `i_enable`
      have hsaved : (if cpu.iNestNum = 0 then old else cpu.iEnable) = before := by
        by_cases hd : depth - 1 = 0
        · have hzero : cpu.iNestNum = 0 := hnest.trans (congrArg Nat.cast hd)
          rw [if_pos hzero, hold]
          exact SpinCtx.flag_of_zero hd
        · have hne : cpu.iNestNum ≠ 0 := by
            rw [hnest]
            exact Int.natCast_ne_zero.2 hd
          rw [if_neg hne]
          exact henable (Nat.pos_of_ne_zero hd)
      exact ⟨hop, fun _ => hsaved, hnest, hintr, hsaved⟩
  | nest lk =>
      cases hst
      obtain ⟨hnest, hintr, hsaved⟩ := h
      have hpos : 0 < depth := hop.2
      have hcount : cpu.iNestNum + 1 = depth := by
        change cpu.iNestNum = ((depth - 1 : ℕ) : ℤ) at hnest
        omega
      exact ⟨hop, fun _ => hsaved, hcount, hintr, hpos⟩
  | spin lk =>
      obtain ⟨w, -, he⟩ := Option.map_eq_some_iff.1 hst
      cases he
      obtain ⟨⟨lk', rfl⟩, -⟩ := hop
      obtain ⟨hnest, hintr, hpos⟩ := h
      exact ⟨trivial, henable, hnest, hintr.trans (SpinCtx.flag_of_pos hpos).symm⟩
  | release lk =>
      cases hst
      obtain ⟨hnest, hintr, hpos⟩ := h
      have hcount : cpu.iNestNum = ((depth - 1 : ℕ) : ℤ) + 1 := by
        change cpu.iNestNum = (depth : ℤ) at hnest
        change 0 < depth at hpos
        omega
      exact ⟨hop, fun _ => henable hpos, hcount, hintr, henable hpos⟩
  | checkFlag =>
      cases hst
      have hpc : (if cpu.intr then SpinPc.idle else SpinPc.checkNest : SpinPc L) = .checkNest :=
        if_neg (by rw [h.2.1]; decide)
      rw [hpc]
      exact ⟨hop, henable, h⟩
  | checkNest =>
      cases hst
      have hpos : ¬ cpu.iNestNum ≤ 0 := by
        rw [h.1]
        omega
      rw [if_neg hpos]
      exact ⟨hop, henable, h⟩
  | unnest =>
      cases hst
      obtain ⟨hnest, hintr, hsaved⟩ := h
      refine ⟨hop, fun _ => hsaved, ?_, hintr, hsaved⟩
      exact sub_eq_of_eq_add hnest
  | restoreFlag =>
      cases hst
      obtain ⟨⟨lk, rfl⟩, -⟩ := hop
      obtain ⟨hnest, hintr, hsaved⟩ := h
      refine ⟨trivial, henable, hnest, ?_⟩
      change (if cpu.iNestNum = 0 ∧ cpu.iEnable then true else cpu.intr) =
        if depth - 1 = 0 then before else false
      change cpu.iNestNum = ((depth - 1 : ℕ) : ℤ) at hnest
      by_cases hd : depth - 1 = 0
      · -- behind the outermost lock
        have hzero : cpu.iNestNum = 0 := by omega
        simp only [hzero, hintr, hsaved, hd, true_and, if_true]
        cases before <;> rfl
      · rw [if_neg (by omega), if_neg hd]
        exact hintr
  | pmmRead =>
      cases hst
      exact ⟨hop, henable, h.1, h.2, h.2⟩
  | pmmMask old =>
      cases hst
      exact ⟨hop, henable, h.1, rfl, h.2.2⟩
  | pmmBody old =>
      cases hst
      exact ⟨hop, henable, h⟩
  | pmmRestore old =>
      cases hst
      obtain ⟨hnest, hintr, hold⟩ := h
      have hflag : (if old then true else cpu.intr) = old := by
        rw [hintr]
        cases old <;> rfl
      rw [SpinCtx.goTo, SpinCtx.ret_eq hop]
      exact ⟨trivial, henable, hnest, hflag.trans hold⟩

end Context

/-! ## Runs -/

section System

variable {κ ι L : Type*} {s s' : SpinState κ ι L}

structure SpinInv (s : SpinState κ ι L) : Prop where
  running : ∀ c, CtxOk (s.cpu c) (s.ctx c)
  saved : ∀ i x flag, s.saved i = some (x, flag) → x.held = 0 ∧ SavedOk x flag

theorem SpinStart.inv (h : SpinStart s) : SpinInv s := by
  rcases h with ⟨hcpu, hsaved, -⟩
  constructor
  · intro c
    rcases hcpu c with ⟨hnest, -, hctx⟩
    have hfresh := fresh_ok (L := L) false (s.cpu c).intr (s.cpu c).iEnable
    rw [hctx]
    rw [← hnest] at hfresh
    exact hfresh
  · intro i x flag hx
    obtain rfl := hsaved i x flag hx
    exact ⟨rfl, fresh_ok false flag⟩

/-- One CPU changes, and what runs on it. -/
theorem SpinInv.running_update [DecidableEq κ] (h : SpinInv s) {c : κ} {cpu : NestCpu}
    {x : SpinCtx L} (hx : CtxOk cpu x) (c' : κ) :
    CtxOk (Function.update s.cpu c cpu c') (Function.update s.ctx c x c') := by
  by_cases hc : c' = c
  · subst hc
    rwa [Function.update_self, Function.update_self]
  · rw [Function.update_of_ne hc, Function.update_of_ne hc]
    exact h.running c'

variable [DecidableEq κ] [DecidableEq ι]

/-- A trap saves a context without spinlocks, and the handler starts with a count of 0. -/
theorem SpinInv.trap (h : SpinInv s) {c : κ} (i : ι)
    (htrap : (s.cpu c).intr = true ∨ ((s.ctx c).pc = .idle ∧ (s.ctx c).depth = 0)) :
    SpinInv { s with
      cpu := Function.update s.cpu c { s.cpu c with intr := false }
      ctx := Function.update s.ctx c (.fresh true false)
      saved := Function.update s.saved i (some (s.ctx c, (s.cpu c).intr)) } := by
  -- nothing that a trap can meet holds a spinlock
  have hsave : (s.cpu c).iNestNum = 0 ∧ (s.ctx c).held = 0 ∧
      SavedOk (s.ctx c) (s.cpu c).intr := by
    rcases htrap with hintr | ⟨hpc, hd⟩
    · exact (h.running c).saved hintr
    · exact (h.running c).saved_idle hpc hd
  rcases hsave with ⟨hnest, hok⟩
  constructor
  · apply h.running_update
    simp only [hnest]
    exact fresh_ok true false _
  · intro j x flag hx
    simp only at hx
    by_cases hj : j = i
    · subst hj
      rw [Function.update_self] at hx
      cases hx
      exact hok
    · rw [Function.update_of_ne hj] at hx
      exact h.saved j x flag hx

/-- The handler leaves a count of 0, which the saved context expects. -/
theorem SpinInv.ret (h : SpinInv s) {c : κ} {i : ι} {x : SpinCtx L} {flag : Bool}
    (hpc : (s.ctx c).pc = .idle) (hd : (s.ctx c).depth = 0) (hi : s.saved i = some (x, flag)) :
    SpinInv { s with
      cpu := Function.update s.cpu c { s.cpu c with intr := flag }
      ctx := Function.update s.ctx c x
      saved := Function.update s.saved i none } := by
  constructor
  · apply h.running_update
    simp only [((h.running c).saved_idle hpc hd).1]
    exact (h.saved i x flag hi).2 _
  · intro j y flag' hy
    simp only at hy
    by_cases hj : j = i
    · subst hj
      rw [Function.update_self] at hy
      cases hy
    · rw [Function.update_of_ne hj] at hy
      exact h.saved j y flag' hy

theorem SpinStep.inv [DecidableEq L] {e : SpinEvent κ ι L} (hst : SpinStep s e s')
    (h : SpinInv s) : SpinInv s' := by
  cases hst with
  | call hpc hop =>
      rename_i c op
      refine ⟨fun c' => ?_, h.saved⟩
      have hrun := h.running_update (c := c) ((h.running c).call hpc hop) c'
      rwa [Function.update_eq_self] at hrun
  | step hop => exact ⟨h.running_update ((h.running _).opStep hop), h.saved⟩
  | trap htrap _ => exact h.trap _ htrap
  | ret _ hpc hd hi => exact h.ret hpc hd hi

/-- What nested spinlocks do to the count and the interrupt flag. -/
structure NestingSound (s : SpinState κ ι L) : Prop where
  /-- the count is the number of spinlocks held or spun on -/
  counted : ∀ c, (s.ctx c).pc = .idle ∨ (∃ lk, (s.ctx c).pc = .spin lk) →
    (s.cpu c).iNestNum = (s.ctx c).depth
  masked : ∀ c, 0 < (s.ctx c).held ∨ 0 < (s.cpu c).iNestNum → (s.cpu c).intr = false
  /-- who is preempted, or moved to another CPU, has no spinlock -/
  stays : ∀ i x flag, s.saved i = some (x, flag) → x.held = 0
  /-- outside all spinlocks the flag is what it was before them -/
  restored : ∀ c, (s.ctx c).pc = .idle → (s.ctx c).depth = 0 →
    (s.cpu c).intr = (s.ctx c).before

omit [DecidableEq κ] [DecidableEq ι] in
theorem SpinInv.nestingSound (h : SpinInv s) : NestingSound s := by
  refine ⟨?_, ?_, fun i x flag hx => (h.saved i x flag hx).1, ?_⟩
  · rintro c (hpc | ⟨lk, hpc⟩)
    · have hf := (h.running c).flags
      rw [hpc] at hf
      exact hf.1.trans (congrArg Nat.cast (by rw [SpinCtx.held, hpc]))
    · have hf := (h.running c).flags
      rw [hpc] at hf
      exact hf.1.trans (congrArg Nat.cast (by rw [SpinCtx.held, hpc]))
  · rintro c (hd | hnest)
    · exact (h.running c).masked hd
    · exact (h.running c).masked_of_nest hnest
  · intro c hpc hd
    have hf := (h.running c).flags
    rw [hpc] at hf
    exact hf.2.trans (SpinCtx.flag_of_zero (by rw [SpinCtx.held, hpc]; exact hd))

/-- In every run, on any number of CPUs. -/
theorem nestingSound_of_run [DecidableEq L] {h : List (SpinState κ ι L × SpinEvent κ ι L)}
    (hr : SpinRun h s) : AllStates NestingSound h s := by
  have hinv := hr.invariant_all (I := SpinInv) (fun s hs => hs.inv) (fun s e t hI hst => hst.inv hI)
  exact ⟨fun p hp => (hinv.1 p hp).nestingSound, hinv.2.nestingSound⟩

/-- The next `n` statements of what runs on CPU `c`. -/
def SpinState.statements [DecidableEq L] (c : κ) : ℕ → SpinState κ ι L → Option (SpinState κ ι L)
  | 0, s => some s
  | n + 1, s => (OsLab.opStep (s.cpu c) s.word (s.ctx c).pc).bind fun r =>
      SpinState.statements c n { s with
        cpu := Function.update s.cpu c r.1
        ctx := Function.update s.ctx c ((s.ctx c).goTo r.2.2)
        word := r.2.1 }

theorem SpinRun.statements [DecidableEq L] {h : List (SpinState κ ι L × SpinEvent κ ι L)} {c : κ}
    (hr : SpinRun h s) (n : ℕ) (hs : SpinState.statements c n s = some s') :
    ∃ h', SpinRun h' s' ∧ ∀ p ∈ h, p ∈ h' := by
  induction n generalizing h s with
  | zero => exact ⟨h, Option.some.inj hs ▸ hr, fun _ hp => hp⟩
  | succ n ih =>
      obtain ⟨⟨cpu, word, pc⟩, hop, hs⟩ := Option.bind_eq_some_iff.1 hs
      obtain ⟨h', hr', hsub⟩ := ih (hr.snoc (.step hop)) hs
      exact ⟨h', hr', fun p hp => hsub p (List.mem_cons_of_mem _ hp)⟩

end System

/-- One CPU with interrupts on, and two spinlocks. -/
def spinStart : SpinState Unit Unit Bool :=
  ⟨fun _ => ⟨0, true, true⟩, fun _ => .fresh false true, fun _ => none, fun _ => spinLockInit⟩

/-- A task is interrupted in its call of `spin_lock`, the handler takes and releases the other
spinlock, and then the task takes both. -/
theorem nestingSound_nested : ∃ h s, SpinRun (κ := Unit) (ι := Unit) (L := Bool) h s ∧
    (∃ p ∈ h, p.2 = .trap () () ∧ (p.1.ctx ()).pc = .readFlag false) ∧
    (s.ctx ()).depth = 2 ∧ (s.cpu ()).iNestNum = 2 ∧ (s.ctx ()).before = true ∧
    AllStates NestingSound h s := by
  have hstart : SpinStart spinStart := ⟨fun _ => ⟨rfl, rfl, rfl⟩, nofun, fun _ => rfl⟩
  have hcall : SpinRun _ _ := (Run.start hstart).snoc
    (show SpinStep _ (.call () (.spinLock false)) _ from .call rfl nofun)
  have htrap : SpinRun _ _ := hcall.snoc
    (show SpinStep _ (.trap () ()) _ from .trap (Or.inl rfl) rfl)
  have hlock : SpinRun _ _ := htrap.snoc
    (show SpinStep _ (.call () (.spinLock true)) _ from .call rfl nofun)
  obtain ⟨h₁, hlocked, hsub₁⟩ := hlock.statements (c := ()) 5 rfl
  have hunlock : SpinRun _ _ := hlocked.snoc
    (show SpinStep _ (.call () (.spinUnlock true)) _ from .call rfl fun _ _ => Nat.one_pos)
  obtain ⟨h₂, hunlocked, hsub₂⟩ := hunlock.statements (c := ()) 5 rfl
  have hret : SpinRun _ _ := hunlocked.snoc
    (show SpinStep _ (.ret () ()) _ from .ret rfl rfl rfl rfl)
  obtain ⟨h₃, hfirst, hsub₃⟩ := hret.statements (c := ()) 5 rfl
  have hsecond : SpinRun _ _ := hfirst.snoc
    (show SpinStep _ (.call () (.spinLock true)) _ from .call rfl nofun)
  obtain ⟨h₄, hr, hsub₄⟩ := hsecond.statements (c := ()) 5 rfl
  have hmem₁ := hsub₁ _ (List.mem_cons_of_mem _ List.mem_cons_self)
  have hmem₂ := hsub₂ _ (List.mem_cons_of_mem _ hmem₁)
  have hmem₃ := hsub₃ _ (List.mem_cons_of_mem _ hmem₂)
  exact ⟨h₄, _, hr, ⟨_, hsub₄ _ (List.mem_cons_of_mem _ hmem₃), rfl, rfl⟩, rfl, rfl, rfl,
    nestingSound_of_run hr⟩

end OsLab
