import OsLab.Kmt.Inv

/-! # Runs of the scheduler

From the state `kmt_init` leaves, any number of CPUs take traps in any order,
tasks are created, and tasks are blocked and unblocked by semaphores. A trap is
one step; it is taken only when there is a task. Ghost state: the tasks created,
for each of them the context saved last, and for each CPU the context it saved
last while idle.
-/

namespace OsLab

open Trace PtrList

variable {α γ : Type*}

/-- The scheduler with its ghost state. -/
structure KmtState (α γ : Type*) where
  kmt : Kmt α γ
  /-- the tasks on `task_list`, the newest first -/
  created : List α
  /-- the context of the last trap that interrupted the task, or that of `kcontext` -/
  saved : α → γ
  /-- the context of the last trap that interrupted the CPU while idle -/
  idleSaved : ℕ → Option γ

/-- A trap comes with the context it interrupts and the tasks its handlers wake; `answer` is the
context `kmt_schedule` returns, and `next` the task it is for (`CUR_TASK` afterwards). -/
inductive KmtEvent (α γ : Type*)
  | trap (cpu : ℕ) (ctx : γ) (wakes : List (Option α)) (answer : γ) (next : Option α)
  | create (task : α) (kctx : γ)
  | setBlocked (p : Option α) (b : Bool)

variable [DecidableEq α]

/-- The CPU saves `ctx` if it is idle. -/
def idleSavedAfter (s : KmtState α γ) (cpu : ℕ) (ctx : γ) : ℕ → Option γ :=
  if s.kmt.currentTask cpu = s.kmt.idleTasks cpu then Function.update s.idleSaved cpu (some ctx)
  else s.idleSaved

/-- The steps of a machine with `n` CPUs. -/
inductive KmtStep (n : ℕ) : KmtState α γ → KmtEvent α γ → KmtState α γ → Prop
  | trap {s : KmtState α γ} {cpu : ℕ} {ctx answer : γ} {wakes : List (Option α)} {k : Kmt α γ} :
      cpu < n → s.kmt.taskList ≠ none → trap cpu ctx wakes s.kmt = some (answer, k) →
      KmtStep n s (.trap cpu ctx wakes answer (k.currentTask cpu))
        ⟨k, s.created, savedAfter (s.kmt.currentTask cpu) ctx s.saved, idleSavedAfter s cpu ctx⟩
  | create {s : KmtState α γ} {task : α} {kctx : γ} :
      task ∉ s.created →
      KmtStep n s (.create task kctx)
        ⟨create task kctx s.kmt, task :: s.created, Function.update s.saved task kctx,
          s.idleSaved⟩
  | setBlocked {s : KmtState α γ} {p : Option α} {b : Bool} :
      KmtStep n s (.setBlocked p b) { s with kmt := setBlocked p b s.kmt }

/-- The state `kmt_init` leaves, where memory was such that `next` reads as `NULL` at `NULL`;
`idleCtx` are the contexts of the idle tasks. -/
inductive KmtStart (n : ℕ) (idleCtx : ℕ → γ) : KmtState α γ → Prop
  | init {mem : Option α → Task α γ} {fresh : ℕ → α} {saved : α → γ} :
      (mem none).next = none →
      KmtStart n idleCtx ⟨kmtInit fresh idleCtx n (kmtBoot mem), [], saved, fun _ => none⟩

/-- Runs of a machine with `n` CPUs. -/
def KmtRun (n : ℕ) (idleCtx : ℕ → γ) :
    List (KmtState α γ × KmtEvent α γ) → KmtState α γ → Prop :=
  Run (KmtStart n idleCtx) (KmtStep n)

/-! ## The state after `kmt_init` -/

/-- `kmt_init` sets no pointer: `init_idle_task` only writes to the memory it allocates. -/
theorem kmtInit_fields (fresh : ℕ → α) (kctx : ℕ → γ) (n : ℕ) (mem : Option α → Task α γ) :
    let k := kmtInit fresh kctx n (kmtBoot mem)
    k.taskList = none ∧ k.taskCount = 0 ∧ (∀ c, k.idleTasks c = none) ∧
    (∀ c, k.currentTask c = none) ∧ (∀ c, k.lastTask c = none) ∧ k.task none = mem none ∧
    k.nullDeref = false := by
  refine ⟨rfl, rfl, ?_⟩
  simp only [kmtInit]
  induction n with
  | zero => exact ⟨fun _ => rfl, fun _ => rfl, fun _ => rfl, rfl, rfl⟩
  | succ n ih =>
      rw [List.range_succ, List.foldl_append, List.foldl_cons, List.foldl_nil]
      generalize (List.range n).foldl _ _ = k at ih ⊢
      rcases ih with ⟨h3, h4, h5, h6, h7⟩
      refine ⟨h3, ?_, ?_, ?_, h7⟩
      · intro c
        by_cases hc : c = n
        · subst hc
          exact Function.update_self _ _ _
        · exact (Function.update_of_ne hc _ _).trans (h4 c)
      · intro c
        by_cases hc : c = n
        · subst hc
          exact Function.update_self _ _ _
        · exact (Function.update_of_ne hc _ _).trans (h5 c)
      · unfold initIdleTask
        exact (Kmt.setTask_of_ne _ _ _ (Option.some_ne_none (fresh n)).symm).trans h6

theorem KmtStart.inv {n : ℕ} {idleCtx : ℕ → γ} {s : KmtState α γ} (h : KmtStart n idleCtx s) :
    SchedInv s.kmt s.created s.saved := by
  cases h with
  | @init mem fresh saved hnull =>
      rcases kmtInit_fields fresh idleCtx n mem with ⟨h1, h2, h3, h4, h5, h6, -⟩
      have hoff : ∀ t c, ¬ (kmtInit fresh idleCtx n (kmtBoot mem)).OnCpu t c := by
        intro t c
        unfold Kmt.OnCpu
        rw [h4, h5]
        simp
      refine ⟨⟨?_, h2, h3, ?_, ?_, ?_, ?_, ?_⟩, ?_⟩
      · exact chain_nil.2 h1
      · rw [h6]
        exact hnull
      · exact fun t c hc => absurd hc (hoff t c)
      · exact fun t c d hc => absurd hc (hoff t c)
      · simp
      · simp
      · simp

/-! ## Ownership and contexts -/

/-- What the running flag, `last_task` and `i_nest` are for: every task on `task_list` is on at
most one CPU, and `kmt_schedule` resumes it where it was interrupted last. -/
structure SchedSound (s : KmtState α γ) : Prop where
  list : Chain (fun a => (s.kmt.task (some a)).next) s.kmt.taskList s.created
  oneCpu : ∀ t ∈ s.created, ∀ c d, s.kmt.OnCpu t c → s.kmt.OnCpu t d → c = d
  running : ∀ t ∈ s.created, ((s.kmt.task (some t)).running = true ↔ ∃ c, s.kmt.OnCpu t c)
  nest : ∀ t ∈ s.created, (s.kmt.task (some t)).iNest = 0 ∨
    ((s.kmt.task (some t)).iNest = 1 ∧ s.kmt.Leaving t)
  leaving : ∀ t ∈ s.created, s.kmt.Leaving t → (s.kmt.task (some t)).iNest = 1
  resumes : s.kmt.taskList ≠ none → ∀ cpu ctx wakes, ∃ answer k,
    trap cpu ctx wakes s.kmt = some (answer, k) ∧
      ∀ t, k.currentTask cpu = some t →
        answer = savedAfter (s.kmt.currentTask cpu) ctx s.saved t

omit [DecidableEq α] in
theorem TasksInv.created_ne_nil {k : Kmt α γ} {L : List α} {saved : α → γ}
    (h : TasksInv k L saved) (hlist : k.taskList ≠ none) : L ≠ [] := by
  rintro rfl
  exact hlist (chain_nil.1 h.chain)

/-- Every step keeps the invariant. -/
theorem KmtStep.inv {n : ℕ} {s s' : KmtState α γ} {e : KmtEvent α γ} (hst : KmtStep n s e s')
    (h : SchedInv s.kmt s.created s.saved) : SchedInv s'.kmt s'.created s'.saved := by
  cases hst with
  | @trap cpu ctx answer wakes k _ hlist htrap =>
      rcases h.trap (h.created_ne_nil hlist) cpu ctx wakes with ⟨answer', k', htrap', hinv, -⟩
      rcases Prod.mk.inj (Option.some.inj (htrap.symm.trans htrap')) with ⟨-, rfl⟩
      exact hinv
  | create hnew => exact h.create hnew _
  | setBlocked => exact (SameSched.setBlocked _ _ _).schedInv h

theorem KmtRun.inv {n : ℕ} {idleCtx : ℕ → γ} {h : List (KmtState α γ × KmtEvent α γ)}
    {s : KmtState α γ} (hr : KmtRun n idleCtx h s) : SchedInv s.kmt s.created s.saved :=
  hr.invariant (I := fun s => SchedInv s.kmt s.created s.saved) (fun _ hs => hs.inv)
    fun _ _ _ hinv hst => hst.inv hinv

/-- In every reachable state of any number of CPUs the scheduler is sound. -/
theorem schedSound_of_run {n : ℕ} {idleCtx : ℕ → γ} {h : List (KmtState α γ × KmtEvent α γ)}
    {s : KmtState α γ} (hr : KmtRun n idleCtx h s) : SchedSound s := by
  have hinv := hr.inv
  refine ⟨hinv.chain, fun t _ => hinv.oneCpu t, hinv.running, ?_, ?_, ?_⟩
  · intro t ht
    by_cases hl : s.kmt.Leaving t
    · exact Or.inr ⟨(hinv.nest t ht).1 hl, hl⟩
    · exact Or.inl ((hinv.nest t ht).2 hl)
  · exact fun t ht hl => (hinv.nest t ht).1 hl
  · intro hlist cpu ctx wakes
    rcases hinv.trap (hinv.created_ne_nil hlist) cpu ctx wakes with ⟨answer, k, htrap, -, hans⟩
    exact ⟨answer, k, htrap, hans⟩

/-- `kmt_init` for `n` CPUs on memory full of zeros. -/
def zeroStart (n : ℕ) : KmtState Bool ℕ where
  kmt := kmtInit (fun _ => true) (fun _ => 0) n (kmtBoot fun _ => ⟨fun _ => 0, 0, false, false, none⟩)
  created := []
  saved := fun _ => 0
  idleSaved := fun _ => none

theorem kmtStart_zeroStart (n : ℕ) : KmtStart n (fun _ => 0) (zeroStart n) := .init rfl

/-- The state after that and two calls of `create`. -/
def twoTasks (n : ℕ) : KmtState Bool ℕ where
  kmt := create false 2 (create true 1 (zeroStart n).kmt)
  created := [false, true]
  saved := Function.update (Function.update (fun _ => 0) true 1) false 2
  idleSaved := fun _ => none

theorem kmtStep_twoTasks (n : ℕ) : ∃ s, KmtStep n (zeroStart n) (.create true 1) s ∧
    KmtStep n s (.create false 2) (twoTasks n) :=
  ⟨_, .create (by simp [zeroStart]), .create (by simp [zeroStart])⟩

/-- Two tasks and two CPUs: each CPU takes a trap and goes on with a task of its own. -/
theorem schedSound_two_cpus : ∃ h s, KmtRun (α := Bool) 2 (fun _ => 0) h s ∧
    s.kmt.currentTask 0 = some false ∧ s.kmt.currentTask 1 = some true ∧ SchedSound s := by
  rcases kmtStep_twoTasks 2 with ⟨s, st₁, st₂⟩
  have hr : KmtRun (α := Bool) 2 (fun _ => 0) _ _ :=
    Run.snoc (Run.snoc (Run.snoc (Run.snoc (Run.start (kmtStart_zeroStart 2)) st₁) st₂)
      (show KmtStep 2 _ (.trap 0 10 [] 2 _) _ from .trap (by decide) (by decide) rfl))
      (show KmtStep 2 _ (.trap 1 11 [] 1 _) _ from .trap (by decide) (by decide) rfl)
  exact ⟨_, _, hr, rfl, rfl, schedSound_of_run hr⟩

end OsLab
