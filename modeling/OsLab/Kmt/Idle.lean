import OsLab.Kmt.Sched

/-! # Idle tasks

Every CPU should idle on a task of its own (`IdleSound`). But `init_idle_task`
is handed the value of `idle_tasks[i]` and overwrites its own parameter with the
task it allocates, so all of `idle_tasks` stays `NULL`: the first trap of every
CPU saves through `NULL`, and the CPUs share the one context there. The
expectation is met exactly as long as there is one CPU and it takes no trap
(`idleSound_iff`).
-/

namespace OsLab

open Trace

variable {α γ : Type*} [DecidableEq α]

/-- The state `os_init` leaves: `dev->init` has created the input task and the tty task. -/
def OsStart (n : ℕ) (idleCtx : ℕ → γ) (s : KmtState α γ) : Prop :=
  ∃ s₀ s₁ input ctxInput tty ctxTty, KmtStart n idleCtx s₀ ∧
    KmtStep n s₀ (.create input ctxInput) s₁ ∧ KmtStep n s₁ (.create tty ctxTty) s

/-- Runs from there. -/
def OsRun (n : ℕ) (idleCtx : ℕ → γ) : List (KmtState α γ × KmtEvent α γ) → KmtState α γ → Prop :=
  Run (OsStart n idleCtx) (KmtStep n)

/-- What the idle tasks are for, in a run with history `h` to `s`. -/
structure IdleSound (n : ℕ) (idleCtx : ℕ → γ) (h : List (KmtState α γ × KmtEvent α γ))
    (s : KmtState α γ) : Prop where
  noNull : s.kmt.nullDeref = false
  distinct : ∀ c < n, ∀ d < n, c ≠ d → s.kmt.idleTasks c ≠ s.kmt.idleTasks d
  ownContext : ∀ s₀ cpu ctx wakes answer,
    (s₀, .trap cpu ctx wakes answer (s₀.kmt.idleTasks cpu)) ∈ h →
      answer = (idleSavedAfter s₀ cpu ctx cpu).getD (idleCtx cpu)

/-- The event is not a trap. -/
def NoTrap (e : KmtEvent α γ) : Prop :=
  ∀ cpu ctx wakes answer next, e ≠ .trap cpu ctx wakes answer next

/-! ## `NULL` on the first trap -/

section NullDeref

variable {k k' : Kmt α γ} {cpu : ℕ} {ctx answer : γ} {wakes : List (Option α)}

theorem releaseLast_nullDeref (cpu : ℕ) (k : Kmt α γ) :
    (releaseLast cpu k).nullDeref = k.nullDeref := by
  unfold releaseLast
  simp only
  split <;> rfl

/-- `kmt_context_save` writes through `CUR_TASK`. -/
theorem kmtContextSave_nullDeref (h : kmtContextSave cpu ctx k = some k') :
    k'.nullDeref = (k.nullDeref || (k.currentTask cpu).isNone) := by
  rcases Option.map_eq_some_iff.1 h with ⟨k₁, hsave, rfl⟩
  rw [releaseLast_nullDeref]
  unfold saveContext at hsave
  simp only at hsave
  split at hsave
  · obtain rfl := Option.some.inj hsave
    rfl
  · rcases Option.map_eq_some_iff.1 hsave with ⟨i, -, rfl⟩
    rfl

/-- Nothing takes the record back. -/
theorem pollTasks_nullDeref (n : ℕ) {p : Option α} (h : pollTasks cpu n p k = some (answer, k'))
    (hnull : k.nullDeref = true) : k'.nullDeref = true := by
  induction n generalizing p with
  | zero =>
      rcases Prod.mk.inj (Option.some.inj h) with ⟨-, rfl⟩
      change (k.nullDeref || _) = true
      rw [hnull]
      rfl
  | succ n ih =>
      rw [pollTasks] at h
      split at h
      · split at h
        · exact ih h
        · rcases Option.map_eq_some_iff.1 h with ⟨i, -, he⟩
          rcases Prod.mk.inj he with ⟨-, rfl⟩
          exact hnull
      · split at h
        · exact ih h
        · rcases Option.map_eq_some_iff.1 h with ⟨i, -, he⟩
          rcases Prod.mk.inj he with ⟨-, rfl⟩
          exact hnull

theorem wakeAll_nullDeref (wakes : List (Option α)) (k : Kmt α γ) :
    (wakeAll wakes k).nullDeref = k.nullDeref := by
  induction wakes generalizing k with
  | nil => rfl
  | cons p wakes ih => exact ih _

theorem trap_nullDeref (h : trap cpu ctx wakes k = some (answer, k'))
    (hnull : k.nullDeref = true ∨ k.currentTask cpu = none) : k'.nullDeref = true := by
  unfold trap at h
  rcases Option.bind_eq_some_iff.1 h with ⟨k₁, hsave, hsched⟩
  have hnull₁ : (wakeAll wakes k₁).nullDeref = true := by
    rw [wakeAll_nullDeref, kmtContextSave_nullDeref hsave]
    rcases hnull with hn | hn <;> simp [hn]
  refine pollTasks_nullDeref _ hsched ?_
  unfold Kmt.deref
  simp only
  split <;> simp [hnull₁]

end NullDeref

/-! ## Exactly when it is sound -/

theorem OsStart.fields {n : ℕ} {idleCtx : ℕ → γ} {s : KmtState α γ} (h : OsStart n idleCtx s) :
    SchedInv s.kmt s.created s.saved ∧ s.kmt.nullDeref = false ∧
      ∀ c, s.kmt.currentTask c = none := by
  rcases h with ⟨s₀, s₁, input, ci, tty, ct, h₀, h₁, h₂⟩
  have hinv := h₂.inv (h₁.inv h₀.inv)
  cases h₂
  cases h₁
  cases h₀ with
  | @init mem fresh saved hnull =>
      rcases kmtInit_fields fresh idleCtx n mem with ⟨-, -, -, h4, -, -, h7⟩
      exact ⟨hinv, h7, h4⟩

theorem OsRun.inv {n : ℕ} {idleCtx : ℕ → γ} {h : List (KmtState α γ × KmtEvent α γ)}
    {s : KmtState α γ} (hr : OsRun n idleCtx h s) : SchedInv s.kmt s.created s.saved :=
  hr.invariant (I := fun s => SchedInv s.kmt s.created s.saved) (fun _ hs => hs.fields.1)
    fun _ _ _ hinv hst => hst.inv hinv

/-- `NULL` has been dereferenced exactly if there was a trap. -/
theorem OsRun.noNull_iff {n : ℕ} {idleCtx : ℕ → γ} {h : List (KmtState α γ × KmtEvent α γ)}
    {s : KmtState α γ} (hr : OsRun n idleCtx h s) :
    (s.kmt.nullDeref = false ↔ AllSteps (fun _ e => NoTrap e) h) ∧
      (s.kmt.nullDeref = false → ∀ c, s.kmt.currentTask c = none) := by
  induction hr with
  | start hs => exact ⟨⟨fun _ => allSteps_nil, fun _ => hs.fields.2.1⟩, fun _ => hs.fields.2.2⟩
  | @snoc h s s' e _ hst ih =>
      rcases ih with ⟨hiff, hcur⟩
      rw [allSteps_cons, ← hiff]
      cases hst with
      | create => exact ⟨⟨fun hn => ⟨nofun, hn⟩, And.right⟩, hcur⟩
      | setBlocked => exact ⟨⟨fun hn => ⟨nofun, hn⟩, And.right⟩, hcur⟩
      | @trap cpu ctx answer wakes k _ _ htrap =>
          have hnull : k.nullDeref = true := by
            refine trap_nullDeref htrap ?_
            cases hn : s.kmt.nullDeref with
            | false => exact Or.inr (hcur hn cpu)
            | true => exact Or.inl rfl
          refine ⟨⟨fun hn => ?_, fun hno => ?_⟩, fun hn => ?_⟩
          · cases hnull.symm.trans hn
          · exact absurd rfl (hno.1 _ _ _ _ _)
          · cases hnull.symm.trans hn

/-- The CPUs idle on their own exactly if there is just one and it takes no trap. -/
theorem idleSound_iff {n : ℕ} {idleCtx : ℕ → γ} {h : List (KmtState α γ × KmtEvent α γ)}
    {s : KmtState α γ} (hr : OsRun n idleCtx h s) :
    IdleSound n idleCtx h s ↔ n ≤ 1 ∧ AllSteps (fun _ e => NoTrap e) h := by
  have hidle := hr.inv.idle
  constructor
  · intro hs
    refine ⟨?_, hr.noNull_iff.1.1 hs.noNull⟩
    by_contra hn
    exact hs.distinct 0 (by omega) 1 (by omega) (by decide) (by rw [hidle, hidle])
  · rintro ⟨hn, hno⟩
    refine ⟨hr.noNull_iff.1.2 hno, ?_, ?_⟩
    · intro c hc d hd hcd
      omega
    · intro s₀ cpu ctx wakes answer hmem
      exact absurd rfl (hno _ hmem _ _ _ _ _)

theorem osStart_twoTasks (n : ℕ) : OsStart n (fun _ => 0) (twoTasks n) := by
  rcases kmtStep_twoTasks n with ⟨s, st₁, st₂⟩
  exact ⟨_, s, true, 1, false, 2, kmtStart_zeroStart n, st₁, st₂⟩

/-- One CPU on which no trap has come yet. -/
theorem idleSound_before_traps : ∃ h s, OsRun (α := Bool) 1 (fun _ => 0) h s ∧
    IdleSound 1 (fun _ => 0) h s := by
  have hr : OsRun (α := Bool) 1 (fun _ => 0) _ _ :=
    Run.snoc (Run.start (osStart_twoTasks 1))
      (show KmtStep 1 _ (.setBlocked (some true) true) _ from .setBlocked)
  refine ⟨_, _, hr, (idleSound_iff hr).2 ⟨Nat.le_refl 1, ?_⟩⟩
  exact allSteps_cons.2 ⟨nofun, allSteps_nil⟩

/-- The state after a trap that wakes nobody. -/
def afterTrap (cpu ctx : ℕ) (s : KmtState Bool ℕ) : KmtState Bool ℕ where
  kmt := ((trap cpu ctx [] s.kmt).map Prod.snd).getD s.kmt
  created := s.created
  saved := savedAfter (s.kmt.currentTask cpu) ctx s.saved
  idleSaved := idleSavedAfter s cpu ctx

theorem kmtStep_afterTrap {n : ℕ} (cpu ctx answer : ℕ) {s : KmtState Bool ℕ} (hcpu : cpu < n)
    (hlist : s.kmt.taskList ≠ none) (h : (trap cpu ctx [] s.kmt).map Prod.fst = some answer) :
    KmtStep n s (.trap cpu ctx [] answer ((afterTrap cpu ctx s).kmt.currentTask cpu))
      (afterTrap cpu ctx s) := by
  rcases Option.map_eq_some_iff.1 h with ⟨⟨a, k⟩, htrap, rfl⟩
  have hk : (afterTrap cpu ctx s).kmt = k := by
    unfold afterTrap
    simp only [htrap, Option.map_some, Option.getD_some]
  refine .trap hcpu hlist ?_
  rw [hk]
  exact htrap

/-- Two CPUs, each of which takes its first trap and goes on with one of two tasks; then the task
of CPU 0 blocks. -/
def beforeIdle : KmtState Bool ℕ :=
  let s := afterTrap 1 11 (afterTrap 0 10 (twoTasks 2))
  { s with kmt := setBlocked (some false) true s.kmt }

/-- On its next trap CPU 0 falls back to idle and is given the context 11 that CPU 1 saved, where
it had saved 10 itself. -/
theorem idle_on_other_context : ∃ h s, OsRun (α := Bool) 2 (fun _ => 0) h s ∧
    s.kmt.nullDeref = true ∧ s.kmt.idleTasks 0 = s.kmt.idleTasks 1 ∧
    (∃ s₀, (s₀, .trap 0 12 [] 11 (s₀.kmt.idleTasks 0)) ∈ h ∧ s₀.idleSaved 0 = some 10 ∧
      s₀.idleSaved 1 = some 11) ∧
    ¬ IdleSound 2 (fun _ => 0) h s := by
  have st₁ : KmtStep 2 (twoTasks 2) _ (afterTrap 0 10 (twoTasks 2)) :=
    kmtStep_afterTrap 0 10 2 (by decide) (by decide) (by decide +kernel)
  have st₂ : KmtStep 2 _ _ (afterTrap 1 11 (afterTrap 0 10 (twoTasks 2))) :=
    kmtStep_afterTrap 1 11 1 (by decide) (by decide +kernel) (by decide +kernel)
  have st₃ : KmtStep 2 _ (.setBlocked (some false) true) beforeIdle := .setBlocked
  have st₄ := kmtStep_afterTrap (n := 2) 0 12 11 (s := beforeIdle) (by decide)
    (by decide +kernel) (by decide +kernel)
  have hidle : (afterTrap 0 12 beforeIdle).kmt.currentTask 0 = beforeIdle.kmt.idleTasks 0 := by
    decide +kernel
  rw [hidle] at st₄
  have hr : OsRun (α := Bool) 2 (fun _ => 0) _ _ :=
    Run.snoc (Run.snoc (Run.snoc (Run.snoc (Run.start (osStart_twoTasks 2)) st₁) st₂) st₃) st₄
  refine ⟨_, _, hr, by decide +kernel, by decide +kernel,
    ⟨beforeIdle, List.mem_cons_self, by decide +kernel, by decide +kernel⟩, ?_⟩
  intro hs
  have hown := hs.ownContext _ _ _ _ _ List.mem_cons_self
  revert hown
  decide +kernel

end OsLab
