import OsLab.Kmt.Basic

/-! # The invariant of the scheduler

`SchedInv k L saved`: between two steps the tasks on `task_list` are `L`, and for
each of them the flags, the nesting count and the context array say where it is.
`kmt_context_save` leaves the CPU's pointers equal (`MidInv`); from there
`kmt_schedule` ends in one of three ways (`pollTasks_cases`), each of which
restores `SchedInv`.
-/

namespace OsLab

open PtrList

variable {α γ : Type*}

/-- What holds of the tasks `L` at any point outside `kmt_context_save` and `kmt_schedule`. -/
structure TasksInv (k : Kmt α γ) (L : List α) (saved : α → γ) : Prop where
  chain : Chain (fun a => (k.task (some a)).next) k.taskList L
  count : k.taskCount = L.length
  idle : ∀ c, k.idleTasks c = none
  nullNext : (k.task none).next = none
  onList : ∀ t c, k.OnCpu t c → t ∈ L
  oneCpu : ∀ t c d, k.OnCpu t c → k.OnCpu t d → c = d
  running : ∀ t ∈ L, ((k.task (some t)).running = true ↔ ∃ c, k.OnCpu t c)
  context : ∀ t ∈ L, (k.task (some t)).context 0 = saved t

/-- `i_nest` of `t` is 1 while `t` is leaving a CPU, else 0. -/
def NestOk (k : Kmt α γ) (t : α) : Prop :=
  (k.Leaving t → (k.task (some t)).iNest = 1) ∧ (¬ k.Leaving t → (k.task (some t)).iNest = 0)

/-- The invariant between two steps. -/
structure SchedInv (k : Kmt α γ) (L : List α) (saved : α → γ) : Prop
    extends TasksInv k L saved where
  nest : ∀ t ∈ L, NestOk k t

/-- The invariant on `cpu` between `kmt_context_save` and `kmt_schedule`: the task that was
interrupted has its context saved at index 0. -/
structure MidInv (cpu : ℕ) (k : Kmt α γ) (L : List α) (saved : α → γ) : Prop
    extends TasksInv k L saved where
  last : k.lastTask cpu = k.currentTask cpu
  current : ∀ t, k.currentTask cpu = some t → (k.task (some t)).iNest = 1
  nest : ∀ t ∈ L, k.currentTask cpu ≠ some t → NestOk k t

/-- The contexts saved last, after a trap that interrupted `cur` with context `ctx`. -/
def savedAfter [DecidableEq α] (cur : Option α) (ctx : γ) (saved : α → γ) : α → γ :=
  match cur with
  | none => saved
  | some t => Function.update saved t ctx

theorem savedAfter_self [DecidableEq α] (t : α) (ctx : γ) (saved : α → γ) :
    savedAfter (some t) ctx saved t = ctx := Function.update_self _ _ _

theorem savedAfter_of_ne [DecidableEq α] {cur : Option α} {t : α} (h : cur ≠ some t) (ctx : γ)
    (saved : α → γ) : savedAfter cur ctx saved t = saved t := by
  cases cur with
  | none => rfl
  | some u =>
      apply Function.update_of_ne
      rintro rfl
      exact h rfl

/-! ## `kmt_context_save` -/

section Save

variable {k : Kmt α γ} {L : List α} {saved : α → γ} {cpu : ℕ} {ctx : γ}

/-- The task that a CPU runs is not leaving another one. -/
theorem SchedInv.not_leaving (h : SchedInv k L saved) {t : α} (ht : k.currentTask cpu = some t) :
    ¬ k.Leaving t := by
  rintro ⟨c, hlast, hcur⟩
  obtain rfl := h.oneCpu t c cpu (Or.inr hlast) (Or.inl ht)
  exact hcur ht

variable [DecidableEq α]

/-- What `kmt_context_save` does to the tasks, seen from outside. -/
structure Saves (cpu : ℕ) (ctx : γ) (k k' : Kmt α γ) : Prop where
  taskList : k'.taskList = k.taskList
  taskCount : k'.taskCount = k.taskCount
  idleTasks : k'.idleTasks = k.idleTasks
  currentTask : k'.currentTask = k.currentTask
  lastTask : k'.lastTask = Function.update k.lastTask cpu (k.currentTask cpu)
  next : ∀ p, (k'.task p).next = (k.task p).next
  blocked : ∀ p, (k'.task p).blocked = (k.task p).blocked
  running : ∀ t, (k'.task (some t)).running =
    if k.lastTask cpu = some t ∧ k.currentTask cpu ≠ some t then false
    else (k.task (some t)).running
  iNest : ∀ t, (k'.task (some t)).iNest =
    if k.currentTask cpu = some t then 1
    else if k.lastTask cpu = some t then (k.task (some t)).iNest - 1
    else (k.task (some t)).iNest
  context : ∀ t, (k'.task (some t)).context 0 =
    if k.currentTask cpu = some t then ctx else (k.task (some t)).context 0

/-- `kmt_context_save` finds `i_nest` at 0 and saves the context there. -/
theorem SchedInv.saveContext_eq (h : SchedInv k L saved) :
    saveContext cpu ctx k = some ((k.deref (k.currentTask cpu)).setTask (k.currentTask cpu) fun t =>
      { t with
        context := Function.update t.context 0 ctx
        iNest := if k.currentTask cpu = none then t.iNest else t.iNest + 1 }) := by
  unfold saveContext
  simp only [Kmt.deref_idleTasks, Kmt.deref_task, h.idle]
  cases hcur : k.currentTask cpu with
  | none => simp
  | some t =>
      have hzero : (k.task (some t)).iNest = 0 :=
        (h.nest t (h.onList t cpu (Or.inl hcur))).2 (h.not_leaving hcur)
      simp [hzero, contextIndex]

/-- The release of the task that ran before, with `NULL` for the idle task. -/
theorem releaseLast_task {k : Kmt α γ} (hidle : k.idleTasks cpu = none) (p : Option α) :
    (releaseLast cpu k).task p =
      if p ≠ none ∧ k.lastTask cpu = p ∧ k.currentTask cpu ≠ p then
        { k.task p with running := false, iNest := (k.task p).iNest - 1 }
      else k.task p := by
  unfold releaseLast
  simp only [hidle]
  by_cases hp : k.lastTask cpu = p
  · subst hp
    by_cases hc : k.lastTask cpu ≠ none ∧ k.currentTask cpu ≠ k.lastTask cpu
    · rw [if_pos ⟨hc.1, hc.1, Ne.symm hc.2⟩, if_pos ⟨hc.1, rfl, hc.2⟩]
      exact Kmt.setTask_self _ _ _
    · rw [if_neg fun h => hc ⟨h.1, Ne.symm h.2.2⟩, if_neg fun h => hc ⟨h.1, h.2.2⟩]
  · rw [if_neg fun h : _ ∧ k.lastTask cpu = p ∧ _ => hp h.2.1]
    split
    · exact Kmt.setTask_of_ne _ _ _ (Ne.symm hp)
    · rfl

theorem releaseLast_fields (cpu : ℕ) (k : Kmt α γ) :
    (releaseLast cpu k).taskList = k.taskList ∧ (releaseLast cpu k).taskCount = k.taskCount ∧
    (releaseLast cpu k).idleTasks = k.idleTasks ∧
    (releaseLast cpu k).currentTask = k.currentTask ∧
    (releaseLast cpu k).lastTask = Function.update k.lastTask cpu (k.currentTask cpu) := by
  unfold releaseLast
  simp only
  split <;> exact ⟨rfl, rfl, rfl, rfl, rfl⟩

/-- `kmt_context_save` succeeds, and this is what it does. -/
theorem SchedInv.saves (h : SchedInv k L saved) (cpu : ℕ) (ctx : γ) :
    ∃ k', kmtContextSave cpu ctx k = some k' ∧ Saves cpu ctx k k' := by
  let k₁ := (k.deref (k.currentTask cpu)).setTask (k.currentTask cpu) fun t =>
    { t with
      context := Function.update t.context 0 ctx
      iNest := if k.currentTask cpu = none then t.iNest else t.iNest + 1 }
  have hsave : kmtContextSave cpu ctx k = some (releaseLast cpu k₁) := by
    unfold kmtContextSave
    rw [h.saveContext_eq, Option.map_some]
  have hidle : k₁.idleTasks cpu = none := h.idle cpu
  have htask : ∀ p, (releaseLast cpu k₁).task p =
      if p ≠ none ∧ k.lastTask cpu = p ∧ k.currentTask cpu ≠ p then
        { k₁.task p with running := false, iNest := (k₁.task p).iNest - 1 }
      else k₁.task p := releaseLast_task hidle
  have hcur : k₁.task (k.currentTask cpu) = { k.task (k.currentTask cpu) with
      context := Function.update (k.task (k.currentTask cpu)).context 0 ctx
      iNest := if k.currentTask cpu = none then (k.task (k.currentTask cpu)).iNest
        else (k.task (k.currentTask cpu)).iNest + 1 } := Kmt.setTask_self _ _ _
  have hother : ∀ p, p ≠ k.currentTask cpu → k₁.task p = k.task p := fun p hp =>
    Kmt.setTask_of_ne _ _ _ hp
  rcases releaseLast_fields cpu k₁ with ⟨h1, h2, h3, h4, h5⟩
  refine ⟨_, hsave, h1, h2, h3, h4, h5, ?_, ?_, ?_, ?_, ?_⟩
  · intro p
    have hnext : (k₁.task p).next = (k.task p).next := Kmt.setTask_field _ _ _ Task.next rfl p
    rw [htask]
    split <;> exact hnext
  · intro p
    have hblocked : (k₁.task p).blocked = (k.task p).blocked :=
      Kmt.setTask_field _ _ _ Task.blocked rfl p
    rw [htask]
    split <;> exact hblocked
  · intro t
    have hrunning : (k₁.task (some t)).running = (k.task (some t)).running :=
      Kmt.setTask_field _ _ _ Task.running rfl _
    rw [htask]
    by_cases hc : k.lastTask cpu = some t ∧ k.currentTask cpu ≠ some t
    · rw [if_pos ⟨Option.some_ne_none t, hc⟩, if_pos hc]
    · rw [if_neg fun h => hc h.2, if_neg hc]
      exact hrunning
  · -- `i_nest`: the task that traps was not nested, and the one that leaves is not it
    intro t
    rw [htask]
    by_cases hp : k.currentTask cpu = some t
    · have hzero : (k.task (some t)).iNest = 0 :=
        (h.nest t (h.onList t cpu (Or.inl hp))).2 (h.not_leaving hp)
      rw [if_neg fun h => h.2.2 hp, if_pos hp, ← hp, hcur, hp]
      simp [hzero]
    · rw [if_neg hp, hother _ (Ne.symm hp)]
      by_cases hl : k.lastTask cpu = some t
      · rw [if_pos ⟨Option.some_ne_none t, hl, hp⟩, if_pos hl]
      · rw [if_neg fun h => hl h.2.1, if_neg hl]
  · intro t
    have hctx : (k₁.task (some t)).context 0 =
        if k.currentTask cpu = some t then ctx else (k.task (some t)).context 0 := by
      by_cases hp : k.currentTask cpu = some t
      · rw [if_pos hp, ← hp, hcur]
        simp only [Function.update_self]
      · rw [if_neg hp, hother _ (Ne.symm hp)]
    rw [htask]
    split <;> exact hctx

namespace Saves

variable {k' : Kmt α γ}

/-- On the CPU that traps only the task that was interrupted is left. -/
theorem onCpu_self (hs : Saves cpu ctx k k') (t : α) :
    k'.OnCpu t cpu ↔ k.currentTask cpu = some t := by
  unfold Kmt.OnCpu
  rw [hs.currentTask, hs.lastTask, Function.update_self, or_self]

theorem onCpu_of_ne (hs : Saves cpu ctx k k') (t : α) {c : ℕ} (hc : c ≠ cpu) :
    k'.OnCpu t c ↔ k.OnCpu t c := by
  unfold Kmt.OnCpu
  rw [hs.currentTask, hs.lastTask, Function.update_of_ne hc]

/-- The new pointers are among the old ones. -/
theorem onCpu (hs : Saves cpu ctx k k') {t : α} {c : ℕ} (h : k'.OnCpu t c) : k.OnCpu t c := by
  by_cases hc : c = cpu
  · subst hc
    exact Or.inl ((hs.onCpu_self t).1 h)
  · exact (hs.onCpu_of_ne t hc).1 h

theorem leaving_iff (hs : Saves cpu ctx k k') (t : α) :
    k'.Leaving t ↔ ∃ c, c ≠ cpu ∧ k.lastTask c = some t ∧ k.currentTask c ≠ some t := by
  unfold Kmt.Leaving
  rw [hs.currentTask, hs.lastTask]
  constructor
  · rintro ⟨c, hl, hcur⟩
    by_cases hc : c = cpu
    · subst hc
      rw [Function.update_self] at hl
      exact absurd hl hcur
    · rw [Function.update_of_ne hc] at hl
      exact ⟨c, hc, hl, hcur⟩
  · rintro ⟨c, hc, hl, hcur⟩
    exact ⟨c, by rwa [Function.update_of_ne hc], hcur⟩

/-- `running` is still true exactly for the tasks on a CPU. -/
theorem running_iff (hs : Saves cpu ctx k k') (h : SchedInv k L saved) {t : α} (ht : t ∈ L) :
    (k'.task (some t)).running = true ↔ ∃ c, k'.OnCpu t c := by
  rw [hs.running]
  by_cases hrel : k.lastTask cpu = some t ∧ k.currentTask cpu ≠ some t
  · -- the released task is on no CPU any more
    rw [if_pos hrel]
    refine ⟨nofun, ?_⟩
    rintro ⟨c, hc⟩
    obtain rfl := h.oneCpu t c cpu (hs.onCpu hc) (Or.inr hrel.1)
    exact absurd ((hs.onCpu_self t).1 hc) hrel.2
  · rw [if_neg hrel, h.running t ht]
    constructor
    · rintro ⟨c, hc⟩
      by_cases hcc : c = cpu
      · subst hcc
        refine ⟨c, (hs.onCpu_self t).2 ?_⟩
        rcases hc with hcur | hlast
        · exact hcur
        · by_contra hne
          exact hrel ⟨hlast, hne⟩
      · exact ⟨c, (hs.onCpu_of_ne t hcc).2 hc⟩
    · rintro ⟨c, hc⟩
      exact ⟨c, hs.onCpu hc⟩

/-- A task other than the one interrupted. -/
theorem nestOk (hs : Saves cpu ctx k k') (h : SchedInv k L saved) {t : α} (ht : t ∈ L)
    (hne : k.currentTask cpu ≠ some t) : NestOk k' t := by
  have hold := h.nest t ht
  unfold NestOk
  rw [hs.iNest, if_neg hne]
  by_cases hl : k.lastTask cpu = some t
  · -- released: it was leaving this CPU and no other
    rw [if_pos hl]
    have hone := hold.1 ⟨cpu, hl, hne⟩
    refine ⟨fun hlv => ?_, fun _ => by omega⟩
    rcases (hs.leaving_iff t).1 hlv with ⟨c, hc, hlc, -⟩
    exact absurd (h.oneCpu t c cpu (Or.inr hlc) (Or.inr hl)) hc
  · rw [if_neg hl]
    have hiff : k'.Leaving t ↔ k.Leaving t := by
      rw [hs.leaving_iff]
      constructor
      · rintro ⟨c, -, hlc, hcur⟩
        exact ⟨c, hlc, hcur⟩
      · rintro ⟨c, hlc, hcur⟩
        refine ⟨c, ?_, hlc, hcur⟩
        rintro rfl
        exact hl hlc
    rw [hiff]
    exact hold

/-- After `kmt_context_save` the middle invariant holds. -/
theorem midInv (hs : Saves cpu ctx k k') (h : SchedInv k L saved) :
    MidInv cpu k' L (savedAfter (k.currentTask cpu) ctx saved) where
  chain := by
    rw [hs.taskList]
    exact h.chain.congr fun a _ => hs.next _
  count := hs.taskCount.trans h.count
  idle c := by
    rw [hs.idleTasks]
    exact h.idle c
  nullNext := (hs.next none).trans h.nullNext
  onList t c ht := h.onList t c (hs.onCpu ht)
  oneCpu t c d hc hd := h.oneCpu t c d (hs.onCpu hc) (hs.onCpu hd)
  running t ht := hs.running_iff h ht
  context t ht := by
    rw [hs.context]
    by_cases hcur : k.currentTask cpu = some t
    · rw [if_pos hcur, hcur, savedAfter_self]
    · rw [if_neg hcur, savedAfter_of_ne hcur]
      exact h.context t ht
  last := by
    rw [hs.currentTask, hs.lastTask, Function.update_self]
  current t ht := by
    rw [hs.currentTask] at ht
    rw [hs.iNest, if_pos ht]
  nest t ht hne := by
    rw [hs.currentTask] at hne
    exact hs.nestOk h ht hne

end Saves

end Save

/-! ## The `blocked` flags -/

/-- `k'` differs from `k` only in `blocked` flags and in what was dereferenced. -/
structure SameSched (k k' : Kmt α γ) : Prop where
  taskList : k'.taskList = k.taskList
  taskCount : k'.taskCount = k.taskCount
  idleTasks : k'.idleTasks = k.idleTasks
  currentTask : k'.currentTask = k.currentTask
  lastTask : k'.lastTask = k.lastTask
  task : ∀ p, k'.task p = { k.task p with blocked := (k'.task p).blocked }

namespace SameSched

variable {k k' k'' : Kmt α γ} {L : List α} {saved : α → γ} {cpu : ℕ}

theorem refl (k : Kmt α γ) : SameSched k k := ⟨rfl, rfl, rfl, rfl, rfl, fun _ => rfl⟩

theorem trans (h : SameSched k k') (h' : SameSched k' k'') : SameSched k k'' where
  taskList := h'.taskList.trans h.taskList
  taskCount := h'.taskCount.trans h.taskCount
  idleTasks := h'.idleTasks.trans h.idleTasks
  currentTask := h'.currentTask.trans h.currentTask
  lastTask := h'.lastTask.trans h.lastTask
  task p := by rw [h'.task p, h.task p]

theorem deref (k : Kmt α γ) (p : Option α) : SameSched k (k.deref p) :=
  ⟨rfl, rfl, rfl, rfl, rfl, fun _ => rfl⟩

theorem onCpu (h : SameSched k k') (t : α) (c : ℕ) : k'.OnCpu t c ↔ k.OnCpu t c := by
  unfold Kmt.OnCpu
  rw [h.currentTask, h.lastTask]

theorem nestOk (h : SameSched k k') {t : α} (ht : NestOk k t) : NestOk k' t := by
  unfold NestOk Kmt.Leaving
  rw [h.currentTask, h.lastTask, h.task]
  exact ht

theorem tasksInv (h : SameSched k k') (hinv : TasksInv k L saved) : TasksInv k' L saved where
  chain := by
    rw [h.taskList]
    exact hinv.chain.congr fun a _ => by rw [h.task]
  count := h.taskCount.trans hinv.count
  idle c := by
    rw [h.idleTasks]
    exact hinv.idle c
  nullNext := by
    rw [h.task]
    exact hinv.nullNext
  onList t c ht := hinv.onList t c ((h.onCpu t c).1 ht)
  oneCpu t c d hc hd := hinv.oneCpu t c d ((h.onCpu t c).1 hc) ((h.onCpu t d).1 hd)
  running t ht := by
    rw [h.task]
    simp only [h.onCpu]
    exact hinv.running t ht
  context t ht := by
    rw [h.task]
    exact hinv.context t ht

theorem schedInv (h : SameSched k k') (hinv : SchedInv k L saved) : SchedInv k' L saved where
  toTasksInv := h.tasksInv hinv.toTasksInv
  nest t ht := h.nestOk (hinv.nest t ht)

theorem midInv (h : SameSched k k') (hinv : MidInv cpu k L saved) : MidInv cpu k' L saved where
  toTasksInv := h.tasksInv hinv.toTasksInv
  last := by
    rw [h.currentTask, h.lastTask]
    exact hinv.last
  current t ht := by
    rw [h.currentTask] at ht
    rw [h.task]
    exact hinv.current t ht
  nest t ht hne := by
    rw [h.currentTask] at hne
    exact h.nestOk (hinv.nest t ht hne)

variable [DecidableEq α]

theorem setBlocked (p : Option α) (b : Bool) (k : Kmt α γ) : SameSched k (setBlocked p b k) := by
  refine ⟨rfl, rfl, rfl, rfl, rfl, ?_⟩
  intro q
  unfold OsLab.setBlocked
  by_cases hq : q = p
  · subst hq
    rw [Kmt.setTask_self]
  · rw [Kmt.setTask_of_ne _ _ _ hq]

theorem wakeAll (wakes : List (Option α)) (k : Kmt α γ) : SameSched k (wakeAll wakes k) := by
  induction wakes generalizing k with
  | nil => exact refl k
  | cons p wakes ih => exact (setBlocked p false k).trans (ih _)

end SameSched

/-! ## `kmt_schedule` -/

section Schedule

variable [DecidableEq α] {k : Kmt α γ} {L : List α} {saved : α → γ} {cpu : ℕ}

omit [DecidableEq α] in
/-- The loop stays on the list. -/
theorem TasksInv.nextTask_mem (h : TasksInv k L saved) (hL : L ≠ []) {p : Option α}
    (hp : ∀ a, p = some a → a ∈ L) : ∃ t ∈ L, nextTask k p = some t := by
  have hhead : ∃ t ∈ L, k.taskList = some t := by
    cases L with
    | nil => exact absurd rfl hL
    | cons a L => exact ⟨a, List.mem_cons_self, (chain_cons.1 h.chain).1⟩
  unfold nextTask
  cases p with
  | none => rwa [h.nullNext, if_neg (by simp)]
  | some a =>
      rcases List.append_of_mem (hp a rfl) with ⟨pre, suf, rfl⟩
      have hnext := h.chain.next_of_append
      cases suf with
      | nil => rwa [chain_nil.1 hnext, if_neg (by simp)]
      | cons b suf =>
          rw [(chain_cons.1 hnext).1, if_pos (by simp)]
          exact ⟨b, by simp, rfl⟩

/-- The three ways the loop of `kmt_schedule` can end. -/
theorem TasksInv.pollTasks_cases (h : TasksInv k L saved) (hL : L ≠ []) (n : ℕ) {p : Option α}
    (hp : ∀ a, p = some a → a ∈ L) :
    pollTasks cpu n p k = some (switchToIdle cpu k) ∨
    (∃ t ∈ L, k.currentTask cpu = some t ∧ pollTasks cpu n p k = resumeCurrent (some t) k) ∨
    (∃ t ∈ L, k.currentTask cpu ≠ some t ∧ (k.task (some t)).running = false ∧
      pollTasks cpu n p k = switchTo cpu (some t) k) := by
  induction n generalizing p with
  | zero => exact Or.inl rfl
  | succ n ih =>
      rcases h.nextTask_mem hL hp with ⟨t, ht, hnext⟩
      have hgo := ih (p := some t) (by
        rintro a ⟨⟩
        exact ht)
      rw [pollTasks, hnext]
      by_cases hcur : some t = k.currentTask cpu
      · simp only [if_pos hcur]
        by_cases hb : (k.task (some t)).blocked = true
        · rw [if_pos hb]
          exact hgo
        · rw [if_neg hb]
          exact Or.inr (Or.inl ⟨t, ht, hcur.symm, rfl⟩)
      · simp only [if_neg hcur]
        by_cases hb : ((k.task (some t)).running || (k.task (some t)).blocked) = true
        · rw [if_pos hb]
          exact hgo
        · rw [if_neg hb]
          rw [Bool.or_eq_true, not_or, Bool.not_eq_true] at hb
          exact Or.inr (Or.inr ⟨t, ht, Ne.symm hcur, hb.1, rfl⟩)

omit [DecidableEq α] in
/-- A task that does not run is on no CPU. -/
theorem TasksInv.not_onCpu (h : TasksInv k L saved) {t : α} (ht : t ∈ L)
    (hrun : (k.task (some t)).running = false) (c : ℕ) : ¬ k.OnCpu t c := by
  intro hc
  rw [(h.running t ht).2 ⟨c, hc⟩] at hrun
  cases hrun

/-- `CUR_TASK` goes on: its context is the one just saved. -/
theorem MidInv.resumeCurrent (h : MidInv cpu k L saved) {t : α} (ht : t ∈ L)
    (hcur : k.currentTask cpu = some t) :
    ∃ k', resumeCurrent (some t) k = some (saved t, k') ∧ SchedInv k' L saved ∧
      k'.currentTask cpu = some t := by
  have hone := h.current t hcur
  refine ⟨k.setTask (some t) fun t => { t with iNest := t.iNest - 1 }, ?_, ?_, hcur⟩
  · unfold OsLab.resumeCurrent
    have hindex : contextIndex ((k.task (some t)).iNest - 1) = some 0 := by
      rw [hone]
      rfl
    simp only [Kmt.setTask_self, hindex, Option.map_some, h.context t ht]
  have hother : ∀ p, p ≠ some t →
      (k.setTask (some t) fun t => { t with iNest := t.iNest - 1 }).task p = k.task p :=
    fun p hp => Kmt.setTask_of_ne _ _ _ hp
  -- only `i_nest` changes
  have htask : ∀ p, ((k.setTask (some t) fun t => { t with iNest := t.iNest - 1 }).task p) =
      { k.task p with
        iNest := if p = some t then (k.task p).iNest - 1 else (k.task p).iNest } := by
    intro p
    by_cases hp : p = some t
    · rw [hp, Kmt.setTask_self, if_pos rfl]
    · rw [hother p hp, if_neg hp]
  refine ⟨⟨?_, h.count, h.idle, ?_, h.onList, h.oneCpu, ?_, ?_⟩, ?_⟩
  · exact h.chain.congr fun a _ => by rw [htask]
  · rw [htask]
    exact h.nullNext
  · intro u hu
    rw [htask]
    exact h.running u hu
  · intro u hu
    rw [htask]
    exact h.context u hu
  · intro u hu
    by_cases hut : u = t
    · subst hut
      have hleave : ¬ k.Leaving u := by
        rintro ⟨c, hlast, hne⟩
        obtain rfl := h.oneCpu u c cpu (Or.inr hlast) (Or.inl hcur)
        exact hne hcur
      refine ⟨fun hl => absurd hl hleave, fun _ => ?_⟩
      rw [Kmt.setTask_self]
      simp only [hone]
      omega
    · have hold := h.nest u hu (by
        rw [hcur]
        exact fun he => hut (Option.some.inj he).symm)
      unfold NestOk
      rw [hother _ fun he => hut (Option.some.inj he)]
      exact hold

/-- What `kmt_schedule` does to the tasks when `cpu` goes on to `q`, another task or idle. -/
structure SwitchesTo (cpu : ℕ) (q : Option α) (k k' : Kmt α γ) : Prop where
  taskList : k'.taskList = k.taskList
  taskCount : k'.taskCount = k.taskCount
  idleTasks : k'.idleTasks = k.idleTasks
  currentTask : k'.currentTask = Function.update k.currentTask cpu q
  lastTask : k'.lastTask = k.lastTask
  task : ∀ p, k'.task p = { k.task p with
    running := if p = q ∧ q ≠ none then true else (k.task p).running }

namespace SwitchesTo

variable {k' : Kmt α γ} {q : Option α}

/-- The pointers afterwards. -/
theorem onCpu_iff (hs : SwitchesTo cpu q k k') (h : MidInv cpu k L saved) (u : α) (c : ℕ) :
    k'.OnCpu u c ↔ (c = cpu ∧ q = some u) ∨ k.OnCpu u c := by
  unfold Kmt.OnCpu
  rw [hs.currentTask, hs.lastTask]
  by_cases hc : c = cpu
  · subst hc
    rw [Function.update_self, ← h.last, or_self]
    simp
  · rw [Function.update_of_ne hc]
    simp [hc]

/-- The task that was interrupted is now leaving the CPU. -/
theorem leaving_iff (hs : SwitchesTo cpu q k k') (h : MidInv cpu k L saved) {u : α}
    (hu : q ≠ some u) : k'.Leaving u ↔ k.currentTask cpu = some u ∨ k.Leaving u := by
  unfold Kmt.Leaving
  rw [hs.currentTask, hs.lastTask]
  constructor
  · rintro ⟨c, hl, hc'⟩
    by_cases hc : c = cpu
    · subst hc
      exact Or.inl (h.last ▸ hl)
    · rw [Function.update_of_ne hc] at hc'
      exact Or.inr ⟨c, hl, hc'⟩
  · rintro (hcur | ⟨c, hl, hc'⟩)
    · refine ⟨cpu, h.last.trans hcur, ?_⟩
      rwa [Function.update_self]
    · refine ⟨c, hl, ?_⟩
      by_cases hc : c = cpu
      · subst hc
        rwa [Function.update_self]
      · rwa [Function.update_of_ne hc]

/-- `running` is set for the new task. -/
theorem running_iff (hs : SwitchesTo cpu q k k') (h : MidInv cpu k L saved) {u : α} (hu : u ∈ L) :
    (k'.task (some u)).running = true ↔ ∃ c, k'.OnCpu u c := by
  rw [hs.task]
  by_cases hqu : some u = q
  · simp only [hqu, true_and]
    rw [if_pos (by rw [← hqu]; simp)]
    exact ⟨fun _ => ⟨cpu, (hs.onCpu_iff h u cpu).2 (Or.inl ⟨rfl, hqu.symm⟩)⟩, fun _ => rfl⟩
  · simp only [hqu, false_and, if_false]
    rw [h.running u hu]
    refine exists_congr fun c => ?_
    rw [hs.onCpu_iff h]
    constructor
    · exact Or.inr
    · rintro (⟨-, he⟩ | hu)
      · exact absurd he.symm hqu
      · exact hu

/-- The new task was on no CPU, so it is not leaving one; the interrupted task is. -/
theorem nestOk (hs : SwitchesTo cpu q k k') (h : MidInv cpu k L saved)
    (hoff : ∀ t, q = some t → ∀ c, ¬ k.OnCpu t c) {u : α} (hu : u ∈ L) : NestOk k' u := by
  unfold NestOk
  rw [hs.task]
  by_cases hqu : q = some u
  · have hnot : ¬ k'.Leaving u := by
      rintro ⟨c, hl, -⟩
      rw [hs.lastTask] at hl
      exact hoff u hqu c (Or.inr hl)
    have hnest := h.nest u hu fun hcur => hoff u hqu cpu (Or.inl hcur)
    exact ⟨fun hl => absurd hl hnot, fun _ => hnest.2 fun ⟨c, hl, _⟩ => hoff u hqu c (Or.inr hl)⟩
  · rw [hs.leaving_iff h hqu]
    by_cases hcur : k.currentTask cpu = some u
    · exact ⟨fun _ => h.current u hcur, fun hno => absurd (Or.inl hcur) hno⟩
    · have hnest := h.nest u hu hcur
      constructor
      · exact fun hl => hnest.1 (hl.resolve_left hcur)
      · exact fun hno => hnest.2 fun hl => hno (Or.inr hl)

/-- The invariant between two steps is restored. -/
theorem schedInv (hs : SwitchesTo cpu q k k') (h : MidInv cpu k L saved)
    (hq : ∀ t, q = some t → t ∈ L ∧ (k.task (some t)).running = false) :
    SchedInv k' L saved := by
  have hoff : ∀ t, q = some t → ∀ c, ¬ k.OnCpu t c := fun t ht c =>
    h.not_onCpu (hq t ht).1 (hq t ht).2 c
  refine ⟨⟨?_, ?_, ?_, ?_, ?_, ?_, ?_, ?_⟩, ?_⟩
  · rw [hs.taskList]
    exact h.chain.congr fun a _ => by rw [hs.task]
  · rw [hs.taskCount]
    exact h.count
  · rw [hs.idleTasks]
    exact h.idle
  · rw [hs.task]
    exact h.nullNext
  · intro u c hu
    rcases (hs.onCpu_iff h u c).1 hu with ⟨-, hqu⟩ | hu
    · exact (hq u hqu).1
    · exact h.onList u c hu
  · intro u c d hc hd
    rcases (hs.onCpu_iff h u c).1 hc with ⟨rfl, hqu⟩ | hc
    · rcases (hs.onCpu_iff h u d).1 hd with ⟨rfl, -⟩ | hd
      · rfl
      · exact absurd hd (hoff u hqu d)
    · rcases (hs.onCpu_iff h u d).1 hd with ⟨rfl, hqu⟩ | hd
      · exact absurd hc (hoff u hqu c)
      · exact h.oneCpu u c d hc hd
  · intro u hu
    exact hs.running_iff h hu
  · intro u hu
    rw [hs.task]
    exact h.context u hu
  · intro u hu
    exact hs.nestOk h hoff hu

end SwitchesTo

/-- Another task goes on: it was on no CPU, so its context is at index 0. -/
theorem MidInv.switchTo (h : MidInv cpu k L saved) {t : α} (ht : t ∈ L)
    (hcur : k.currentTask cpu ≠ some t) (hrun : (k.task (some t)).running = false) :
    ∃ k', switchTo cpu (some t) k = some (saved t, k') ∧ SchedInv k' L saved ∧
      k'.currentTask cpu = some t := by
  have hzero : (k.task (some t)).iNest = 0 :=
    (h.nest t ht hcur).2 fun ⟨c, hl, _⟩ => h.not_onCpu ht hrun c (Or.inr hl)
  refine ⟨(k.setTask (some t) fun t => { t with running := true }).setCurrent cpu (some t),
    ?_, ?_, Kmt.setCurrent_self _ _ _⟩
  · unfold OsLab.switchTo
    have hindex : contextIndex (k.task (some t)).iNest = some 0 := by
      rw [hzero]
      rfl
    simp only [Kmt.setCurrent_task, Kmt.setTask_self, hindex, Option.map_some, h.context t ht]
  · have hs : SwitchesTo cpu (some t) k
        ((k.setTask (some t) fun t => { t with running := true }).setCurrent cpu (some t)) := by
      refine ⟨rfl, rfl, rfl, rfl, rfl, fun p => ?_⟩
      rw [Kmt.setCurrent_task]
      by_cases hp : p = some t
      · rw [hp, Kmt.setTask_self, if_pos ⟨rfl, by simp⟩]
      · rw [Kmt.setTask_of_ne _ _ _ hp, if_neg fun he => hp he.1]
    refine hs.schedInv h ?_
    rintro _ ⟨⟩
    exact ⟨ht, hrun⟩

/-- The CPU goes idle. -/
theorem MidInv.switchToIdle (h : MidInv cpu k L saved) :
    SchedInv (switchToIdle cpu k).2 L saved ∧ (switchToIdle cpu k).2.currentTask cpu = none := by
  have hs : SwitchesTo cpu none k (OsLab.switchToIdle cpu k).2 := by
    refine ⟨rfl, rfl, rfl, ?_, rfl, fun p => ?_⟩
    · unfold OsLab.switchToIdle
      rw [h.idle]
      rfl
    · rw [if_neg fun he => he.2 rfl]
      rfl
  refine ⟨hs.schedInv h nofun, ?_⟩
  rw [hs.currentTask, Function.update_self]

omit [DecidableEq α] in
/-- `kmt_schedule` sets `CUR_TASK` only where it already was `NULL`. -/
theorem Kmt.setCurrent_idle (hidle : ∀ c, k.idleTasks c = none) (cpu : ℕ) :
    (if k.currentTask cpu = none then k.setCurrent cpu (k.idleTasks cpu) else k) = k := by
  split
  · rename_i hnull
    unfold Kmt.setCurrent
    rw [hidle, ← hnull, Function.update_eq_self]
  · rfl

/-- `kmt_schedule` returns a context, and if it is for a task, the one saved last for it. -/
theorem MidInv.schedule (h : MidInv cpu k L saved) (hL : L ≠ []) :
    ∃ answer k', kmtSchedule cpu k = some (answer, k') ∧ SchedInv k' L saved ∧
      ∀ t, k'.currentTask cpu = some t → answer = saved t := by
  unfold kmtSchedule
  rw [Kmt.setCurrent_idle h.idle]
  have h' := (SameSched.deref k (k.currentTask cpu)).midInv h
  have hp : ∀ a, k.currentTask cpu = some a → a ∈ L := fun a ha => h.onList a cpu (Or.inl ha)
  rcases h'.pollTasks_cases hL (k.taskCount * 2 + 2) hp with he | ⟨t, ht, hcur, he⟩ |
    ⟨t, ht, hcur, hrun, he⟩
  · have hidle := h'.switchToIdle
    refine ⟨_, _, he, hidle.1, fun t ht => ?_⟩
    cases hidle.2.symm.trans ht
  · rcases h'.resumeCurrent ht hcur with ⟨k', hk', hinv, hcur'⟩
    refine ⟨saved t, k', he.trans hk', hinv, fun u hu => ?_⟩
    rw [hcur'] at hu
    rw [Option.some.inj hu]
  · rcases h'.switchTo ht hcur hrun with ⟨k', hk', hinv, hcur'⟩
    refine ⟨saved t, k', he.trans hk', hinv, fun u hu => ?_⟩
    rw [hcur'] at hu
    rw [Option.some.inj hu]

/-- A trap is handled, keeps the invariant, and returns for a task the context saved last. -/
theorem SchedInv.trap (h : SchedInv k L saved) (hL : L ≠ []) (cpu : ℕ) (ctx : γ)
    (wakes : List (Option α)) :
    ∃ answer k', trap cpu ctx wakes k = some (answer, k') ∧
      SchedInv k' L (savedAfter (k.currentTask cpu) ctx saved) ∧
      ∀ t, k'.currentTask cpu = some t →
        answer = savedAfter (k.currentTask cpu) ctx saved t := by
  rcases h.saves cpu ctx with ⟨k₁, hsave, hs⟩
  have hmid := (SameSched.wakeAll wakes k₁).midInv (hs.midInv h)
  rcases hmid.schedule hL with ⟨answer, k', hsched, hinv, hans⟩
  refine ⟨answer, k', ?_, hinv, hans⟩
  unfold OsLab.trap
  rw [hsave, Option.bind_some, hsched]

end Schedule

/-! ## `create` -/

section Create

variable [DecidableEq α] {k : Kmt α γ} {L : List α} {saved : α → γ}

/-- A new task is on no CPU and starts with the context of `kcontext`. -/
theorem SchedInv.create (h : SchedInv k L saved) {t : α} (ht : t ∉ L) (kctx : γ) :
    SchedInv (OsLab.create t kctx k) (t :: L) (Function.update saved t kctx) := by
  have hnew : (OsLab.create t kctx k).task (some t) =
      ⟨Function.update (k.task (some t)).context 0 kctx, 0, false, false, k.taskList⟩ :=
    Function.update_self _ _ _
  have hold : ∀ p, p ≠ some t → (OsLab.create t kctx k).task p = k.task p := fun p hp =>
    Function.update_of_ne hp _ _
  have hold' : ∀ u ∈ L, (OsLab.create t kctx k).task (some u) = k.task (some u) := fun u hu =>
    hold _ fun he => ht (Option.some.inj he ▸ hu)
  have hoff : ∀ c, ¬ k.OnCpu t c := fun c hc => ht (h.onList t c hc)
  refine ⟨⟨?_, congrArg (· + 1) h.count, h.idle, ?_, ?_, h.oneCpu, ?_, ?_⟩, ?_⟩
  · refine chain_cons.2 ⟨rfl, ?_⟩
    rw [hnew]
    exact h.chain.congr fun a ha => by rw [hold' a ha]
  · rw [hold none (by simp)]
    exact h.nullNext
  · exact fun u c hu => List.mem_cons_of_mem _ (h.onList u c hu)
  · intro u hu
    rcases List.mem_cons.1 hu with rfl | hu
    · rw [hnew]
      exact ⟨nofun, fun ⟨c, hc⟩ => absurd hc (hoff c)⟩
    · rw [hold' u hu]
      exact h.running u hu
  · intro u hu
    rcases List.mem_cons.1 hu with rfl | hu
    · simp only [hnew, Function.update_self]
    · have hne : u ≠ t := fun he => ht (he ▸ hu)
      rw [hold' u hu, Function.update_of_ne hne]
      exact h.context u hu
  · intro u hu
    unfold NestOk
    rcases List.mem_cons.1 hu with rfl | hu
    · rw [hnew]
      exact ⟨fun ⟨c, hl, _⟩ => absurd (Or.inr hl) (hoff c), fun _ => rfl⟩
    · rw [hold' u hu]
      exact h.nest u hu

end Create

end OsLab
