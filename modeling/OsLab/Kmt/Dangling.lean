import OsLab.Kmt.TeardownInv

/-! # `teardown` and the pointers to the task

`teardown` takes a task off `task_list` and gives its memory back, whatever the task
is doing. When it is running, `current_task` or `last_task` of a CPU still points to
it, and when it is blocked, an entry of a semaphore does. `teardownSound_iff`: these
are the only ways in which a pointer to freed memory comes about.

That a step neither reads nor writes the memory at `t` is said by what it does on
other contents of it: the same, and the contents stay (`TaskInv.step_poke`).
-/

namespace OsLab

open Trace PtrList

variable {ι α γ : Type*} [DecidableEq α]

/-! ## Memory that is not looked at -/

section Poke

variable {k : Kmt α γ} {L : List α} {saved : α → γ} {cpu : ℕ} {t : α} {x : Task α γ}

theorem Kmt.poke_of_ne {p : Option α} (hp : p ≠ some t) : (k.poke t x).task p = k.task p :=
  Kmt.setTask_of_ne _ _ _ hp

theorem Kmt.setTask_poke {p : Option α} (hp : p ≠ some t) (f : Task α γ → Task α γ) :
    (k.poke t x).setTask p f = (k.setTask p f).poke t x := by
  unfold Kmt.poke Kmt.setTask
  simp only [Function.update_of_ne hp]
  rw [Function.update_comm (Ne.symm hp)]

theorem setBlocked_poke {p : Option α} (hp : p ≠ some t) (b : Bool) :
    setBlocked p b (k.poke t x) = (setBlocked p b k).poke t x := Kmt.setTask_poke hp _

theorem saveContext_poke (hcur : k.currentTask cpu ≠ some t) (ctx : γ) :
    saveContext cpu ctx (k.poke t x) = (saveContext cpu ctx k).map fun k => k.poke t x := by
  have htask : ((k.poke t x).deref (k.currentTask cpu)).task (k.currentTask cpu) =
      (k.deref (k.currentTask cpu)).task (k.currentTask cpu) := Kmt.poke_of_ne hcur
  have hset : ∀ f, ((k.poke t x).deref (k.currentTask cpu)).setTask (k.currentTask cpu) f =
      ((k.deref (k.currentTask cpu)).setTask (k.currentTask cpu) f).poke t x := fun f =>
    Kmt.setTask_poke (k := k.deref (k.currentTask cpu)) hcur f
  unfold saveContext
  simp only [show (k.poke t x).currentTask = k.currentTask from rfl, htask, hset]
  split
  · rw [if_pos ‹_›, Option.map_some]
  · rw [if_neg ‹_›, Option.map_map]
    rfl

theorem releaseLast_poke (hlast : k.lastTask cpu ≠ some t) :
    releaseLast cpu (k.poke t x) = (releaseLast cpu k).poke t x := by
  have hset := fun f => Kmt.setTask_poke (k := k) (x := x) hlast f
  unfold releaseLast
  simp only [show (k.poke t x).lastTask = k.lastTask from rfl, hset]
  split
  · rw [if_pos ‹_›]
    rfl
  · rw [if_neg ‹_›]
    rfl

theorem kmtContextSave_poke (hcur : k.currentTask cpu ≠ some t) (hlast : k.lastTask cpu ≠ some t)
    {ctx : γ} {k' : Kmt α γ} (h : kmtContextSave cpu ctx k = some k') :
    kmtContextSave cpu ctx (k.poke t x) = some (k'.poke t x) := by
  unfold kmtContextSave at h ⊢
  rcases Option.map_eq_some_iff.1 h with ⟨k₁, hk₁, rfl⟩
  have hlast₁ : k₁.lastTask cpu ≠ some t := by
    unfold saveContext at hk₁
    simp only at hk₁
    split at hk₁
    · exact Option.some.inj hk₁ ▸ hlast
    · rcases Option.map_eq_some_iff.1 hk₁ with ⟨i, -, rfl⟩
      exact hlast
  rw [saveContext_poke hcur, hk₁, Option.map_some, Option.map_some, releaseLast_poke hlast₁]

omit [DecidableEq α] in
/-- The loop of `kmt_schedule` stays on the list, or at the idle slot when the list is empty. -/
theorem TasksInv.nextTask_onList (h : TasksInv k L saved) {p : Option α}
    (hp : ∀ a, p = some a → a ∈ L) : ∀ a, nextTask k p = some a → a ∈ L := by
  intro a ha
  by_cases hL : L = []
  · subst hL
    have hnone : p = none := by
      cases p with
      | none => rfl
      | some b => exact absurd (hp b rfl) List.not_mem_nil
    unfold nextTask at ha
    rw [hnone, h.nullNext, if_neg (by simp), chain_nil.1 h.chain] at ha
    cases ha
  · rcases h.nextTask_mem hL hp with ⟨b, hb, hnext⟩
    rw [hnext] at ha
    exact Option.some.inj ha ▸ hb

theorem TasksInv.pollTasks_poke (h : TasksInv k L saved) (ht : t ∉ L) {n : ℕ} {p : Option α}
    (hp : ∀ a, p = some a → a ∈ L) {answer : γ} {k' : Kmt α γ}
    (hpoll : pollTasks cpu n p k = some (answer, k')) :
    pollTasks cpu n p (k.poke t x) = some (answer, k'.poke t x) := by
  -- the loop only comes to tasks on the list, and to the idle slot
  have hne : ∀ q : Option α, (∀ a, q = some a → a ∈ L) → q ≠ some t := fun q hq he => ht (hq t he)
  induction n generalizing p with
  | zero =>
      rcases Prod.mk.inj (Option.some.inj hpoll) with ⟨rfl, rfl⟩
      have hidle : (k.poke t x).task none = k.task none := Kmt.poke_of_ne (by simp)
      rw [pollTasks]
      unfold switchToIdle
      simp only [show (k.poke t x).idleTasks = k.idleTasks from rfl, h.idle]
      rw [Kmt.deref_task, Kmt.setCurrent_task, hidle]
      rfl
  | succ n ih =>
      have hq := h.nextTask_onList hp
      have hnext : nextTask (k.poke t x) p = nextTask k p := by
        unfold nextTask
        rw [Kmt.poke_of_ne (hne p hp)]
        rfl
      rw [pollTasks] at hpoll ⊢
      rw [hnext]
      have hq' := hne _ hq
      generalize nextTask k p = q at hpoll hq hq'
      simp only [show (k.poke t x).currentTask = k.currentTask from rfl, Kmt.poke_of_ne hq']
      split at hpoll
      · rw [if_pos ‹_›]
        split at hpoll
        · rw [if_pos ‹_›]
          exact ih hq hpoll
        · rw [if_neg ‹_›]
          unfold resumeCurrent at hpoll ⊢
          simp only [Kmt.setTask_poke hq', Kmt.poke_of_ne hq'] at hpoll ⊢
          rcases Option.map_eq_some_iff.1 hpoll with ⟨i, hi, he⟩
          rcases Prod.mk.inj he with ⟨rfl, rfl⟩
          rw [hi]
          rfl
      · rw [if_neg ‹_›]
        split at hpoll
        · rw [if_pos ‹_›]
          exact ih hq hpoll
        · rw [if_neg ‹_›]
          unfold switchTo at hpoll ⊢
          simp only [Kmt.setTask_poke hq', Kmt.setCurrent_task, Kmt.poke_of_ne hq'] at hpoll ⊢
          rcases Option.map_eq_some_iff.1 hpoll with ⟨i, hi, he⟩
          rcases Prod.mk.inj he with ⟨rfl, rfl⟩
          rw [hi]
          rfl

theorem MidInv.schedule_poke (h : MidInv cpu k L saved) (ht : t ∉ L) {answer : γ} {k' : Kmt α γ}
    (hsched : kmtSchedule cpu k = some (answer, k')) :
    kmtSchedule cpu (k.poke t x) = some (answer, k'.poke t x) := by
  unfold kmtSchedule at hsched ⊢
  rw [Kmt.setCurrent_idle h.idle] at hsched
  rw [Kmt.setCurrent_idle (k := k.poke t x) h.idle]
  exact ((SameSched.deref k (k.currentTask cpu)).midInv h).toTasksInv.pollTasks_poke ht
    (fun a ha => h.onList a cpu (Or.inl ha)) hsched

theorem unlinkTask_poke {u : α} (hu : u ≠ t) {l : List α} {p : Option α} {fuel : ℕ}
    {k' : Kmt α γ} (h : Chain (fun a => (k.task (some a)).next) p l) (ht : t ∉ l)
    (hk : unlinkTask (some u) fuel p k = some k') :
    unlinkTask (some u) fuel p (k.poke t x) = some (k'.poke t x) := by
  have hu' : (k.poke t x).task (some u) = k.task (some u) :=
    Kmt.poke_of_ne fun he => hu (Option.some.inj he)
  -- on the list, along which the loop goes
  induction h generalizing fuel with
  | nil =>
      cases fuel with
      | zero => cases hk
      | succ fuel =>
          rw [unlinkTask, if_pos rfl] at hk ⊢
          rw [Option.some.inj hk]
  | @cons a l hl ih =>
      cases fuel with
      | zero => cases hk
      | succ fuel =>
          have ha : some a ≠ some t := by
            intro he
            obtain rfl := Option.some.inj he
            exact ht List.mem_cons_self
          rw [unlinkTask, if_neg (by simp)] at hk ⊢
          rw [Kmt.poke_of_ne ha, hu', Kmt.setTask_poke ha]
          split at hk
          · rw [if_pos ‹_›, Option.some.inj hk]
          · rw [if_neg ‹_›]
            exact ih (fun hmem => ht (List.mem_cons_of_mem _ hmem)) hk

theorem TasksInv.teardown_poke (h : TasksInv k L saved) (ht : t ∉ L) {u : α} (hu : u ∈ L)
    {fuel : ℕ} {k' : Kmt α γ} (hk : teardown fuel (some u) k = some k') :
    teardown fuel (some u) (k.poke t x) = some (k'.poke t x) := by
  have hut : u ≠ t := by
    rintro rfl
    exact ht hu
  have hidle : (k.poke t x).isIdle (some u) = false := Kmt.isIdle_some (k := k.poke t x) h.idle u
  unfold teardown at hk ⊢
  rw [Kmt.isIdle_some h.idle u] at hk
  rw [hidle]
  simp only [Bool.false_eq_true, if_false] at hk ⊢
  rcases Option.map_eq_some_iff.1 hk with ⟨k₁, hk₁, rfl⟩
  simp only [show (k.poke t x).taskList = k.taskList from rfl]
  by_cases hhead : some u = k.taskList
  · rw [if_pos hhead] at hk₁ ⊢
    obtain rfl := Option.some.inj hk₁
    rw [← hhead, Kmt.poke_of_ne fun he => hut (Option.some.inj he)]
    rfl
  · rw [if_neg hhead] at hk₁ ⊢
    rw [unlinkTask_poke hut h.chain ht hk₁]
    rfl

theorem Sem.wait_poke (q : Sem α) {p : Option α} (hp : p ≠ some t) :
    q.wait p (k.poke t x) = ((q.wait p k).1, (q.wait p k).2.poke t x) := by
  unfold Sem.wait
  split
  · rfl
  · rw [setBlocked_poke hp]

theorem QueuesInv.signal_poke {q : ι → Sem α} (h : QueuesInv q k L) (ht : t ∉ L) (i : ι)
    (x : Task α γ) :
    (q i).signal (k.poke t x) = (((q i).signal k).1, ((q i).signal k).2.poke t x) := by
  unfold Sem.signal
  split
  · rename_i hc
    rcases h.head hc.1 with ⟨u, hu, hent⟩
    -- the one that is woken is on the list
    rw [setBlocked_poke]
    rw [hu]
    rintro ⟨⟩
    apply ht
    apply h.queued i
    rw [hent]
    exact List.mem_cons_self
  · rfl

theorem QueuesInv.signalAll_poke [DecidableEq ι] {q : ι → Sem α} (h : QueuesInv q k L)
    (ht : t ∉ L) (is : List ι) (x : Task α γ) :
    OsLab.signalAll is q (k.poke t x) =
      ((OsLab.signalAll is q k).1, (OsLab.signalAll is q k).2.poke t x) := by
  induction is generalizing q k with
  | nil => rfl
  | cons i is ih =>
      rw [OsLab.signalAll, h.signal_poke ht i x]
      exact ih (h.signal i)

/-- `kmt_context_save` blocks and wakes nobody. -/
theorem QueuesInv.contextSave {q : ι → Sem α} {k' : Kmt α γ} {cpu : ℕ} {ctx : γ}
    (h : QueuesInv q k L) (hsched : SchedInv k L saved)
    (hsave : kmtContextSave cpu ctx k = some k') : QueuesInv q k' L := by
  rcases hsched.saves cpu ctx with ⟨k₁, hsave', hs⟩
  obtain rfl := Option.some.inj (hsave.symm.trans hsave')
  exact h.congr (fun _ _ _ => hs.blocked _) h.queued

/-- The invariant does not look at the memory of other tasks. -/
theorem SchedInv.poke (h : SchedInv k L saved) (ht : t ∉ L) (x : Task α γ) :
    SchedInv (k.poke t x) L saved := by
  have htask : ∀ u ∈ L, (k.poke t x).task (some u) = k.task (some u) := by
    intro u hu
    apply Kmt.poke_of_ne
    rintro ⟨⟩
    exact ht hu
  have hnull : (k.poke t x).task none = k.task none := Kmt.poke_of_ne (by simp)
  refine ⟨⟨?_, h.count, h.idle, ?_, h.onList, h.oneCpu, ?_, ?_⟩, ?_⟩
  · exact h.chain.congr fun a ha => by rw [htask a ha]
  · rw [hnull]
    exact h.nullNext
  · intro u hu
    rw [htask u hu]
    exact h.running u hu
  · intro u hu
    rw [htask u hu]
    exact h.context u hu
  · intro u hu
    unfold NestOk
    rw [htask u hu]
    exact h.nest u hu

end Poke

/-! ## The invariant of the machine -/

variable [DecidableEq ι]

/-- The tasks that were created and not torn down are those on `task_list`, and only they are in
queues. -/
structure TaskInv (s : TaskState ι α γ) : Prop where
  sched : ∃ saved, SchedInv s.kmt s.tasks saved
  queues : QueuesInv s.sems s.kmt s.tasks
  freed : ∀ t ∈ s.freed, t ∉ s.tasks

/-- A task that is torn down is neither running nor waiting for a semaphore. -/
def TeardownSafe (s : TaskState ι α γ) (e : TaskEvent ι α γ) : Prop :=
  ∀ t, e = .teardown t →
    (s.kmt.task (some t)).running = false ∧ ∀ i, some t ∉ (s.sems i).entries

section Steps

variable {n : ℕ} {idleCtx : ℕ → γ} {value : ι → ℤ} {s s' : TaskState ι α γ} {e : TaskEvent ι α γ}
  {t : α}

omit [DecidableEq ι] in
theorem TaskStart.inv (h : TaskStart n idleCtx value s) : TaskInv s := by
  cases h with
  | @init s₀ hs =>
      have hpos : 0 < SEM_CAPACITY := Nat.two_pow_pos 8
      have hent : ∀ i, (Sem.init (value i) : Sem α).entries = [] := fun i =>
        (Ring.window_eq_nil_iff hpos hpos).2 rfl
      have hnone : ∀ i (u : α), some u ∉ (Sem.init (value i) : Sem α).entries := by
        intro i u hu
        rw [hent] at hu
        cases hu
      refine ⟨⟨s₀.saved, ?_⟩, ⟨?_, ?_, ?_⟩, by simp⟩
      · have hinv := hs.inv
        cases hs
        exact hinv
      · exact fun i => ⟨hpos, hpos, [], hent i, List.nodup_nil, by simp⟩
      · exact fun i u hu => absurd hu (hnone i u)
      · exact fun i _ u hu => absurd hu (hnone i u)

/-- Every step that tears down no running or waiting task keeps the invariant. -/
theorem TaskStep.inv (hst : TaskStep n s e s') (h : TaskInv s) (hsafe : TeardownSafe s e) :
    TaskInv s' := by
  rcases h with ⟨⟨saved, hsched⟩, hq, hfreed⟩
  cases hst with
  | @trap cpu ctx answer signals k k' _ hsave hgo =>
      have hsig := SameSched.signalAll signals s.sems k
      rcases hsched.trapStep hsave hsig hgo with ⟨hmid, hinv⟩
      have hq₂ := (hq.contextSave hsched hsave).signalAll signals
      exact ⟨⟨_, hinv⟩, hq₂.congr (fun _ _ _ => hmid.schedule_blocked hgo _) hq₂.queued, hfreed⟩
  | @create u kctx hnew =>
      refine ⟨⟨_, hsched.create hnew kctx⟩, ?_, ?_⟩
      · apply hq.congr
        · intro i v hv
          have hne : some v ≠ some u := by
            intro he
            exact hnew (Option.some.inj he ▸ hq.queued i v hv)
          rw [show (OsLab.create u kctx s.kmt).task (some v) = s.kmt.task (some v) from
            Function.update_of_ne hne _ _]
        · exact fun i v hv => List.mem_cons_of_mem _ (hq.queued i v hv)
      · intro v hv hmem
        rcases List.mem_filter.1 hv with ⟨hv, hne⟩
        rcases List.mem_cons.1 hmem with rfl | hmem
        · simp at hne
        · exact hfreed v hv hmem
  | @wait cpu i u _ hcur hbl =>
      have hu : u ∈ s.tasks := hsched.onList u cpu (Or.inl hcur)
      exact ⟨⟨saved, (SameSched.wait _ _ _).schedInv hsched⟩, hq.wait i hu hbl, hfreed⟩
  | @signal i =>
      exact ⟨⟨saved, (SameSched.signal _ _).schedInv hsched⟩, hq.signal i, hfreed⟩
  | @teardown u k fuel hu _ hk =>
      rcases hsafe u rfl with ⟨hrun, hent⟩
      have hun := hsched.toTasksInv.unlinks hu hk
      refine ⟨⟨saved, hsched.teardown hun hu hrun⟩, ?_, ?_⟩
      · apply hq.congr
        · intro i v _
          rw [hun.task]
        · intro i v hv
          refine (List.mem_erase_of_ne ?_).2 (hq.queued i v hv)
          rintro rfl
          exact hent i hv
      · intro v hv hmem
        rcases List.mem_cons.1 hv with rfl | hv
        · exact (hsched.chain.nodup.mem_erase_iff.1 hmem).1 rfl
        · exact hfreed v hv (List.mem_of_mem_erase hmem)
  | @reuse u x hu =>
      -- memory that was given back belongs to no task
      have hne : ∀ v ∈ s.tasks, some v ≠ some u := by
        rintro v hv ⟨⟩
        exact hfreed u hu hv
      refine ⟨⟨saved, hsched.poke (hfreed u hu) x⟩, ?_, hfreed⟩
      apply hq.congr
      · intro i v hv
        exact congrArg Task.blocked (Kmt.poke_of_ne (hne v (hq.queued i v hv)))
      · exact hq.queued

/-- No step looks at or changes the memory of a task that was torn down, but for the steps of its
next owner. -/
theorem TaskInv.step_poke (h : TaskInv s) (ht : t ∈ s.freed) (hst : TaskStep n s e s')
    (hgives : ¬ e.Gives t) (x : Task α γ) : TaskStep n (s.poke t x) e (s'.poke t x) := by
  rcases h with ⟨⟨saved, hsched⟩, hq, hfreed⟩
  have htasks := hfreed t ht
  have hoff : ∀ c, ¬ s.kmt.OnCpu t c := fun c hc => htasks (hsched.onList t c hc)
  -- neither a CPU nor a queue points to `t`
  have hent : ∀ i, some t ∉ (s.sems i).entries := fun i hi => htasks (hq.queued i t hi)
  cases hst with
  | @trap cpu ctx answer signals k k' hcpu hsave hgo =>
      have hsig := SameSched.signalAll signals s.sems k
      rcases hsched.trapStep hsave hsig hgo with ⟨hmid, -⟩
      have hsave₁ := kmtContextSave_poke (x := x) (fun he => hoff cpu (Or.inl he))
        (fun he => hoff cpu (Or.inr he)) hsave
      have hsig₁ := (hq.contextSave hsched hsave).signalAll_poke htasks signals x
      have hgo₁ := hmid.schedule_poke (x := x) htasks hgo
      have hnew : TaskStep n (s.poke t x) (.trap cpu ctx signals answer)
          { s with
            kmt := k'.poke t x
            sems := (signalAll signals s.sems (k.poke t x)).1 } := by
        refine .trap hcpu hsave₁ ?_
        change kmtSchedule cpu (signalAll signals s.sems (k.poke t x)).2 = _
        rw [hsig₁]
        exact hgo₁
      rw [hsig₁] at hnew
      exact hnew
  | @create u kctx hu =>
      have hne : some u ≠ some t := fun he => hgives (Option.some.inj he)
      have hcreate : create u kctx (s.kmt.poke t x) = (create u kctx s.kmt).poke t x := by
        unfold create
        simp only
        rw [Kmt.setTask_poke hne]
        rfl
      have hnew : TaskStep n (s.poke t x) (.create u kctx) ⟨create u kctx (s.kmt.poke t x), s.sems,
        u :: s.tasks, s.freed.filter fun v => decide (v ≠ u)⟩ := .create hu
      rw [hcreate] at hnew
      exact hnew
  | @wait cpu i u hcpu hcur hbl =>
      have hne : some u ≠ some t := fun he => hoff cpu (Or.inl (hcur.trans he))
      have hwait := Sem.wait_poke (s.sems i) (k := s.kmt) (x := x) hne
      have hnew : TaskStep n (s.poke t x) (.wait cpu i) { s with
          sems := Function.update s.sems i ((s.sems i).wait (some u) (s.kmt.poke t x)).1
          kmt := ((s.sems i).wait (some u) (s.kmt.poke t x)).2 } :=
        .wait hcpu hcur ((congrArg Task.blocked (Kmt.poke_of_ne hne)).trans hbl)
      rw [hwait] at hnew
      exact hnew
  | @signal i =>
      have hsig := hq.signal_poke htasks i x
      have hnew : TaskStep n (s.poke t x) (.signal i) { s with
          sems := Function.update s.sems i ((s.sems i).signal (s.kmt.poke t x)).1
          kmt := ((s.sems i).signal (s.kmt.poke t x)).2 } := .signal
      rw [hsig] at hnew
      exact hnew
  | @teardown u k fuel hu hidle hk =>
      exact .teardown hu hidle (hsched.toTasksInv.teardown_poke htasks hu hk)
  | @reuse u y hu =>
      have hne : some u ≠ some t := fun he => hgives (Option.some.inj he)
      have hnew : TaskStep n (s.poke t x) (.reuse u y) ((s.poke t x).poke u y) := .reuse hu
      have hcomm : (s.kmt.poke t x).poke u y = (s.kmt.poke u y).poke t x :=
        Kmt.setTask_poke hne _
      unfold TaskState.poke at hnew ⊢
      simp only [hcomm] at hnew
      exact hnew

end Steps

/-! ## No dangling task -/

/-- What `teardown` is to leave behind: nothing points to the memory of a task that was torn down,
and no step reads or writes it until it is given out again. -/
structure TeardownSound (n : ℕ) (s : TaskState ι α γ) : Prop where
  pointers : ∀ t ∈ s.freed, ∀ c, s.kmt.currentTask c ≠ some t ∧ s.kmt.lastTask c ≠ some t
  queues : ∀ t ∈ s.freed, ∀ i, some t ∉ (s.sems i).entries
  untouched : ∀ t ∈ s.freed, ∀ e s', TaskStep n s e s' → ¬ e.Gives t →
    ∀ x, TaskStep n (s.poke t x) e (s'.poke t x)

theorem TaskInv.teardownSound {s : TaskState ι α γ} (h : TaskInv s) (n : ℕ) :
    TeardownSound n s := by
  have hoff : ∀ t ∈ s.freed, ∀ c, ¬ s.kmt.OnCpu t c := by
    intro t ht c hc
    rcases h.sched with ⟨saved, hsched⟩
    exact h.freed t ht (hsched.onList t c hc)
  refine ⟨?_, ?_, ?_⟩
  · exact fun t ht c => ⟨fun he => hoff t ht c (Or.inl he), fun he => hoff t ht c (Or.inr he)⟩
  · exact fun t ht i hi => h.freed t ht (h.queues.queued i t hi)
  · exact fun t ht e s' hst hgives => h.step_poke ht hst hgives

/-- Tearing down a running or waiting task leaves a pointer to it. -/
theorem TaskInv.dangles {n : ℕ} {s s' : TaskState ι α γ} {e : TaskEvent ι α γ}
    (h : TaskInv s) (hbad : ¬ TeardownSafe s e) (hst : TaskStep n s e s') :
    ¬ TeardownSound n s' := by
  intro hs'
  apply hbad
  rintro t rfl
  rcases h.sched with ⟨saved, hsched⟩
  cases hst with
  | @teardown _ k fuel ht _ hk =>
      have hun := hsched.toTasksInv.unlinks ht hk
      constructor
      · rw [← Bool.not_eq_true, hsched.running t ht]
        -- a task that runs is current or last on some CPU, also after its `teardown`
        rintro ⟨c, hc⟩
        have hno := hs'.pointers t List.mem_cons_self c
        simp only [hun.currentTask, hun.lastTask] at hno
        exact hc.elim hno.1 hno.2
      · exact hs'.queues t List.mem_cons_self

/-- In every run of any number of CPUs, semaphores and tasks `teardown` leaves no pointer behind,
exactly if it is called for tasks only that are neither running nor in the queue of a semaphore. -/
theorem teardownSound_iff {n : ℕ} {idleCtx : ℕ → γ} {value : ι → ℤ}
    {h : List (TaskState ι α γ × TaskEvent ι α γ)} {s : TaskState ι α γ}
    (hr : TaskRun n idleCtx value h s) :
    AllStates (TeardownSound n) h s ↔ AllSteps TeardownSafe h :=
  hr.allStates_iff_allSteps_of_inv (I := TaskInv) (fun _ hs => hs.inv)
    (fun _ _ _ hI hC hst => hst.inv hI hC) (fun _ hI => hI.teardownSound n)
    fun _ _ _ hI hC hst => hI.dangles hC hst

/-- One CPU that runs the newer of two tasks. -/
def twoTasksRunning : TaskState Unit Bool ℕ where
  kmt := ((trap 0 10 [] (twoTasks 1).kmt).map Prod.snd).getD (twoTasks 1).kmt
  sems := fun _ => Sem.init 0
  tasks := [false, true]
  freed := []

theorem taskRun_twoTasksRunning : ∃ h, TaskRun 1 (fun _ => 0) (fun _ => 0) h twoTasksRunning ∧
    AllSteps TeardownSafe h := by
  have hr : TaskRun (ι := Unit) (α := Bool) 1 (fun _ => 0) (fun _ => 0) _ _ :=
    Run.snoc (Run.snoc (Run.snoc (Run.start (.init (kmtStart_zeroStart 1)))
      (show TaskStep 1 _ (.create true 1) _ from .create (by simp)))
      (show TaskStep 1 _ (.create false 2) _ from .create (by simp)))
      (show TaskStep 1 _ (.trap 0 10 [] 2) twoTasksRunning from .trap (by decide) rfl rfl)
  refine ⟨_, hr, ?_⟩
  rintro ⟨s, e⟩ hmem t rfl
  simp at hmem

/-- The task that does not run is torn down. -/
theorem teardownSound_of_waiting : ∃ h s,
    TaskRun (ι := Unit) (α := Bool) 1 (fun _ => 0) (fun _ => 0) h s ∧ true ∈ s.freed ∧
    AllStates (TeardownSound 1) h s := by
  rcases taskRun_twoTasksRunning with ⟨h, hr, hsafe⟩
  have hr' := hr.snoc (show TaskStep 1 _ (.teardown true) _ from
    .teardown (by decide) (by decide)
      (show teardown 1 (some true) twoTasksRunning.kmt = _ from rfl))
  refine ⟨_, _, hr', List.mem_cons_self, (teardownSound_iff hr').2 ?_⟩
  refine allSteps_cons.2 ⟨?_, hsafe⟩
  rintro t he
  obtain rfl : true = t := TaskEvent.teardown.inj he
  constructor
  · rfl
  · intro i
    change some true ∉ (Sem.init 0 : Sem Bool).entries
    decide

/-- The running task tears itself down: `current_task` still points to it. -/
theorem not_teardownSound : ¬ ∀ (n : ℕ) (idleCtx : ℕ → ℕ) (value : Unit → ℤ)
    (h : List (TaskState Unit Bool ℕ × TaskEvent Unit Bool ℕ)) (s : TaskState Unit Bool ℕ),
    TaskRun n idleCtx value h s → TeardownSound n s := by
  intro hall
  rcases taskRun_twoTasksRunning with ⟨h, hr, -⟩
  have hr' := hr.snoc (show TaskStep 1 _ (.teardown false) _ from
    .teardown (by decide) (by decide)
      (show teardown 0 (some false) twoTasksRunning.kmt = _ from rfl))
  exact ((hall _ _ _ _ _ hr').pointers false List.mem_cons_self 0).1 rfl

end OsLab
