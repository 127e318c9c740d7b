import OsLab.Kmt.TeardownInv

/-! # The task list and its locks

`create` and `teardown` with `task_list_lock` and the locks of the tasks, which the
other modules on tasks leave out. Any sequence of calls leaves on `task_list` just the tasks that
were created and not torn down since, newest first, and every lock free.
-/

namespace OsLab

open PtrList

variable {α γ : Type*}

/-! ## `create` and `teardown` with their locks -/

/-- The globals of `kmt.c` with the words of the locks: `task_list_lock.lock`, and `t->lock.lock`
for every task. -/
structure TaskLists (α γ : Type*) where
  kmt : Kmt α γ
  listLock : ℕ
  taskLock : Option α → ℕ

namespace TaskLists

/-- `spin_lock(&task_list_lock)`. -/
def lockList (s : TaskLists α γ) : Option (TaskLists α γ) :=
  (lock s.listLock).map fun v => { s with listLock := v }

/-- `spin_unlock(&task_list_lock)`. -/
def unlockList (s : TaskLists α γ) : TaskLists α γ := { s with listLock := unlock }

variable [DecidableEq α]

/-- `spin_lock(&t->lock)`. -/
def lockTask (t : Option α) (s : TaskLists α γ) : Option (TaskLists α γ) :=
  (lock (s.taskLock t)).map fun v => { s with taskLock := Function.update s.taskLock t v }

/-- `spin_unlock(&t->lock)`. -/
def unlockTask (t : Option α) (s : TaskLists α γ) : TaskLists α γ :=
  { s with taskLock := Function.update s.taskLock t unlock }

end TaskLists

variable [DecidableEq α]

/-- `create`; `spin_init` sets the word of the new task's lock. -/
def createTask (t : α) (kctx : γ) (s : TaskLists α γ) : Option (TaskLists α γ) :=
  s.lockList.map fun s =>
    { s with
      kmt := create t kctx s.kmt
      taskLock := Function.update s.taskLock (some t) spinLockInit }.unlockList

/-- The loop of `teardown` at `t`, which holds the lock of one task at a time. -/
def unlinkLocked (task : Option α) : ℕ → Option α → TaskLists α γ → Option (TaskLists α γ)
  | 0, _, _ => none
  | fuel + 1, t, s =>
      if t = none then some s
      else
        (s.lockTask t).bind fun s =>
          if (s.kmt.task t).next = task then
            some (TaskLists.unlockTask t
              { s with kmt := s.kmt.setTask t fun x => { x with next := (s.kmt.task task).next } })
          else
            let s := s.unlockTask t
            unlinkLocked task fuel (s.kmt.task t).next s

/-- `teardown`, up to `pmm->free`. -/
def teardownTask (fuel : ℕ) (task : Option α) (s : TaskLists α γ) : Option (TaskLists α γ) :=
  if s.kmt.isIdle task then some s
  else
    s.lockList.bind fun s =>
      (if task = s.kmt.taskList then
        some { s with kmt := { s.kmt with taskList := (s.kmt.task s.kmt.taskList).next } }
      else unlinkLocked task fuel s.kmt.taskList s).map fun s =>
        { s with kmt := { s.kmt with taskCount := s.kmt.taskCount - 1 } }.unlockList

/-! ## Without the locks they are those of the other modules -/

section Locks

variable {s : TaskLists α γ} {L : List α} {t : α}

theorem lock_free {v : ℕ} (h : v = 0) : lock v = some 1 := by
  rw [h]
  rfl

/-- Taking a free lock and giving it back leaves it free. -/
theorem unlockTask_locked {p : Option α} (h : s.taskLock p = 0) {v : ℕ} :
    Function.update (Function.update s.taskLock p v) p unlock = s.taskLock := by
  rw [Function.update_idem, show unlock = s.taskLock p from h.symm]
  exact Function.update_eq_self _ _

/-- The loop leaves the locks as they are, and does what it does without them. -/
theorem unlinkLocked_eq {task p : Option α} (fuel : ℕ)
    (hchain : Chain (fun a => (s.kmt.task (some a)).next) p L)
    (hfree : ∀ u ∈ L, s.taskLock (some u) = 0) :
    unlinkLocked task fuel p s =
      (unlinkTask task fuel p s.kmt).map fun k => { s with kmt := k } := by
  induction fuel generalizing p L with
  | zero => rfl
  | succ fuel ih =>
      cases L with
      | nil =>
          rw [chain_nil.1 hchain]
          rfl
      | cons a L =>
          rcases chain_cons.1 hchain with ⟨rfl, htail⟩
          have ha := hfree a List.mem_cons_self
          rw [unlinkLocked, unlinkTask, if_neg (by simp), if_neg (by simp), TaskLists.lockTask,
            lock_free ha, Option.map_some, Option.bind_some]
          simp only [TaskLists.unlockTask, unlockTask_locked ha]
          split
          · rfl
          · exact ih htail fun u hu => hfree u (List.mem_cons_of_mem _ hu)

/-- So does `teardown`. -/
theorem teardownTask_eq {task : Option α} (fuel : ℕ)
    (hchain : Chain (fun a => (s.kmt.task (some a)).next) s.kmt.taskList L)
    (hlist : s.listLock = 0) (hfree : ∀ u ∈ L, s.taskLock (some u) = 0) :
    teardownTask fuel task s = (teardown fuel task s.kmt).map fun k => { s with kmt := k } := by
  rcases s with ⟨k, l, w⟩
  simp only at hlist
  subst hlist
  unfold teardownTask teardown
  split
  · rfl
  · rw [TaskLists.lockList, lock_free rfl, Option.map_some, Option.bind_some]
    have hloop : unlinkLocked task fuel k.taskList ⟨k, 1, w⟩ =
        (unlinkTask task fuel k.taskList k).map fun k => ⟨k, 1, w⟩ :=
      unlinkLocked_eq fuel hchain hfree
    simp only
    split
    · rfl
    · rw [hloop]
      cases unlinkTask task fuel k.taskList k <;> rfl

end Locks

/-! ## Calls -/

/-- A call of `create` or `teardown`, or other contents, `x` and a lock word, for memory that is no
task's. -/
inductive TaskCall (α γ : Type*)
  | create (t : α) (kctx : γ)
  | teardown (p : Option α)
  | reuse (t : α) (x : Task α γ) (word : ℕ)

/-- One call; `none` when it does not return. -/
def TaskCall.run (fuel : ℕ) : TaskCall α γ → TaskLists α γ → Option (TaskLists α γ)
  | .create t kctx, s => createTask t kctx s
  | .teardown p, s => teardownTask fuel p s
  | .reuse t x word, s =>
      some { s with kmt := s.kmt.poke t x, taskLock := Function.update s.taskLock (some t) word }

/-- One call after the other. -/
def runCalls (fuel : ℕ) : List (TaskCall α γ) → TaskLists α γ → Option (TaskLists α γ)
  | [], s => some s
  | c :: cs, s => (c.run fuel s).bind fun s => runCalls fuel cs s

/-- The tasks that were created and not torn down since, newest first, after one more call. -/
def livingAfter (L : List α) : TaskCall α γ → List α
  | .create t _ => t :: L
  | .teardown (some t) => L.erase t
  | .teardown none => L
  | .reuse _ _ _ => L

/-- And after a sequence of calls. -/
def living (cs : List (TaskCall α γ)) : List α := cs.foldl livingAfter []

/-- What the callers see to, while the tasks `L` are alive: a task object is fresh, and only living
tasks and idle tasks are torn down. -/
def TaskCall.Valid (idle : Option α → Bool) (L : List α) : TaskCall α γ → Prop
  | .create t _ => t ∉ L ∧ idle (some t) = false
  | .teardown p => idle p = true ∨ ∃ t ∈ L, p = some t
  | .reuse t _ _ => t ∉ L ∧ idle (some t) = false

/-- All calls of a sequence are, from the tasks `L` on. -/
def ValidCalls (idle : Option α → Bool) : List α → List (TaskCall α γ) → Prop
  | _, [] => True
  | L, c :: cs => c.Valid idle L ∧ ValidCalls idle (livingAfter L c) cs

/-! ## The invariant -/

/-- The task list holds exactly the tasks `L`, and the locks are free. `idle` is the check at the
start of `teardown`. -/
structure TaskListInv (idle : Option α → Bool) (L : List α) (s : TaskLists α γ) : Prop where
  chain : Chain (fun a => (s.kmt.task (some a)).next) s.kmt.taskList L
  nodup : L.Nodup
  count : s.kmt.taskCount = L.length
  isIdle : s.kmt.isIdle = idle
  notIdle : ∀ t ∈ L, idle (some t) = false
  listLock : s.listLock = 0
  taskLock : ∀ t, t ∈ L ∨ idle (some t) = true → s.taskLock (some t) = 0

/-- Taking `t` off the list `L`: the others keep their order and their fields, except the link of
the task in front of `t`, and all locks are as before. -/
structure TakesOff (L : List α) (t : α) (s s' : TaskLists α γ) : Prop where
  chain : Chain (fun a => (s'.kmt.task (some a)).next) s'.kmt.taskList (L.erase t)
  order : (L.erase t).Sublist L
  pred : ∀ u ∈ L, (s.kmt.task (some u)).next = some t →
    s'.kmt.task (some u) = { s.kmt.task (some u) with next := (s.kmt.task (some t)).next }
  others : ∀ p, (∀ u ∈ L, p = some u → (s.kmt.task p).next ≠ some t) →
    s'.kmt.task p = s.kmt.task p
  listLock : s'.listLock = s.listLock
  taskLock : s'.taskLock = s.taskLock

section Inv

variable {idle : Option α → Bool} {s : TaskLists α γ} {L : List α} {t : α} {fuel : ℕ}

/-- A task that is created comes first. -/
theorem TaskListInv.create (h : TaskListInv idle L s) (ht : t ∉ L) (hidle : idle (some t) = false)
    (kctx : γ) : ∃ s', createTask t kctx s = some s' ∧ TaskListInv idle (t :: L) s' := by
  rw [createTask, TaskLists.lockList, lock_free h.listLock]
  refine ⟨_, rfl, ?_, List.nodup_cons.2 ⟨ht, h.nodup⟩, congrArg (· + 1) h.count, h.isIdle, ?_, rfl,
    ?_⟩
  · refine chain_cons.2 ⟨rfl, ?_⟩
    have hnew : ((OsLab.create t kctx s.kmt).task (some t)).next = s.kmt.taskList := by
      simp [OsLab.create]
    change Chain _ ((OsLab.create t kctx s.kmt).task (some t)).next L
    rw [hnew]
    refine h.chain.congr fun u hu => ?_
    have hut : some u ≠ some t := fun he => ht (Option.some.inj he ▸ hu)
    exact congrArg Task.next (Function.update_of_ne hut _ _)
  · intro u hu
    rcases List.mem_cons.1 hu with rfl | hu
    · exact hidle
    · exact h.notIdle u hu
  · intro u hu
    change Function.update s.taskLock (some t) spinLockInit (some u) = 0
    by_cases hut : u = t
    · rw [hut]
      exact Function.update_self _ _ _
    · rw [Function.update_of_ne fun he => hut (Option.some.inj he)]
      refine h.taskLock u (hu.imp_left fun hu => ?_)
      exact (List.mem_cons.1 hu).resolve_left hut

/-- A living task is taken off, wherever on the list it is. -/
theorem TaskListInv.teardown (h : TaskListInv idle L s) (ht : t ∈ L) (hfuel : L.length ≤ fuel) :
    ∃ s', teardownTask fuel (some t) s = some s' ∧ TakesOff L t s s' ∧
      TaskListInv idle (L.erase t) s' := by
  have hidle : s.kmt.isIdle (some t) = false := by
    rw [h.isIdle]
    exact h.notIdle t ht
  rcases teardown_eq h.chain hidle ht with ⟨k', hu, hb, m, hm, hrun⟩
  refine ⟨{ s with kmt := k' }, ?_, ?_, ?_⟩
  · rw [teardownTask_eq fuel h.chain h.listLock fun u hu => h.taskLock u (Or.inl hu), hrun,
      if_pos (Or.inl (Nat.lt_of_lt_of_le hm hfuel))]
    rfl
  · exact ⟨hu.chain, List.erase_sublist, hb.pred, hb.others, rfl, rfl⟩
  · refine ⟨hu.chain, h.nodup.erase t, ?_, ?_, ?_, h.listLock, ?_⟩
    · rw [hu.taskCount, h.count, List.length_erase_of_mem ht]
    · rw [← h.isIdle]
      unfold Kmt.isIdle
      rw [hu.idleTasks]
    · exact fun u hu => h.notIdle u (List.mem_of_mem_erase hu)
    · exact fun u hu => h.taskLock u (hu.imp_left List.mem_of_mem_erase)

/-- An idle task stays. -/
theorem TaskListInv.teardown_idle (h : TaskListInv idle L s) {p : Option α} (hp : idle p = true) :
    teardownTask fuel p s = some s := by
  rw [teardownTask, if_pos]
  rw [h.isIdle]
  exact hp

/-- Memory that is no task's may change. -/
theorem TaskListInv.reuse (h : TaskListInv idle L s) (ht : t ∉ L) (hidle : idle (some t) = false)
    (x : Task α γ) (word : ℕ) :
    TaskListInv idle L { s with
      kmt := s.kmt.poke t x
      taskLock := Function.update s.taskLock (some t) word } := by
  refine ⟨?_, h.nodup, h.count, h.isIdle, h.notIdle, h.listLock, fun u hu => ?_⟩
  · refine h.chain.congr fun u hu => ?_
    have hut : some u ≠ some t := fun he => ht (Option.some.inj he ▸ hu)
    change ((s.kmt.poke t x).task (some u)).next = _
    rw [Kmt.poke, Kmt.setTask_of_ne _ _ _ hut]
  · have hut : some u ≠ some t := by
      intro he
      obtain rfl := Option.some.inj he
      rcases hu with hu | hu
      · exact ht hu
      · rw [hidle] at hu
        cases hu
    exact (Function.update_of_ne hut _ _).trans (h.taskLock u hu)

/-- Every valid call returns and keeps the invariant. -/
theorem TaskListInv.step (h : TaskListInv idle L s) {c : TaskCall α γ} (hc : c.Valid idle L)
    (hfuel : L.length ≤ fuel) :
    ∃ s', c.run fuel s = some s' ∧ TaskListInv idle (livingAfter L c) s' := by
  cases c with
  | create t kctx => exact h.create hc.1 hc.2 kctx
  | reuse t x word => exact ⟨_, rfl, h.reuse hc.1 hc.2 x word⟩
  | teardown p =>
      rcases hc with hp | ⟨t, ht, rfl⟩
      · refine ⟨s, h.teardown_idle hp, ?_⟩
        cases p with
        | none => exact h
        | some t =>
            -- an idle task is not on the list
            have ht : t ∉ L := by
              intro ht
              rw [h.notIdle t ht] at hp
              cases hp
            rw [livingAfter, List.erase_of_not_mem ht]
            exact h
      · rcases h.teardown ht hfuel with ⟨s', hrun, -, hinv⟩
        exact ⟨s', hrun, hinv⟩

/-- So does a sequence of calls. -/
theorem TaskListInv.run (h : TaskListInv idle L s) {cs : List (TaskCall α γ)}
    (hcs : ValidCalls idle L cs) (hfuel : L.length + cs.length ≤ fuel) :
    ∃ s', runCalls fuel cs s = some s' ∧ TaskListInv idle (cs.foldl livingAfter L) s' ∧
      (cs.foldl livingAfter L).length ≤ fuel := by
  induction cs generalizing L s with
  | nil => exact ⟨s, rfl, h, hfuel⟩
  | cons c cs ih =>
      rw [List.length_cons] at hfuel
      obtain ⟨s₁, hrun, hinv⟩ := h.step hcs.1 (by omega : L.length ≤ fuel)
      have hlen : (livingAfter L c).length ≤ L.length + 1 := by
        cases c with
        | create t kctx => exact Nat.le_refl _
        | reuse t x word => exact Nat.le_succ _
        | teardown p =>
            cases p with
            | none => exact Nat.le_succ _
            | some t => exact Nat.le_succ_of_le List.length_erase_le
      obtain ⟨s', hrun', hinv', hlen'⟩ := ih hinv hcs.2 (by omega)
      refine ⟨s', ?_, hinv', hlen'⟩
      rw [runCalls, hrun]
      exact hrun'

end Inv

/-! ## From the start -/

/-- What `kmt_init` leaves, with any idle tasks, whose locks are free. -/
structure TaskListStart (s : TaskLists α γ) : Prop where
  taskList : s.kmt.taskList = none
  taskCount : s.kmt.taskCount = 0
  listLock : s.listLock = spinLockInit
  taskLock : ∀ t, s.kmt.isIdle (some t) = true → s.taskLock (some t) = spinLockInit

/-- After any sequence of calls the list holds exactly the living tasks, newest first, and the locks
are free; any of them can be taken off, and idle tasks stay. -/
theorem taskList_living {s₀ : TaskLists α γ} (h₀ : TaskListStart s₀) {cs : List (TaskCall α γ)}
    (hcs : ValidCalls s₀.kmt.isIdle [] cs) {fuel : ℕ} (hfuel : cs.length ≤ fuel) :
    ∃ s, runCalls fuel cs s₀ = some s ∧ TaskListInv s₀.kmt.isIdle (living cs) s ∧
      (∀ t ∈ living cs, ∃ s', teardownTask fuel (some t) s = some s' ∧
        TakesOff (living cs) t s s' ∧ TaskListInv s₀.kmt.isIdle ((living cs).erase t) s') ∧
      ∀ p, s.kmt.isIdle p = true → teardownTask fuel p s = some s := by
  have hinv₀ : TaskListInv s₀.kmt.isIdle [] s₀ := by
    refine ⟨chain_nil.2 h₀.taskList, List.nodup_nil, h₀.taskCount, rfl, ?_, h₀.listLock, ?_⟩
    · exact fun t ht => absurd ht List.not_mem_nil
    · exact fun t ht => h₀.taskLock t (ht.resolve_left List.not_mem_nil)
  obtain ⟨s, hrun, hinv, hlen⟩ := hinv₀.run hcs (by simpa using hfuel)
  refine ⟨s, hrun, hinv, fun t ht => hinv.teardown ht hlen, fun p hp => ?_⟩
  rw [hinv.isIdle] at hp
  exact hinv.teardown_idle hp

/-- The state behind `kmt_init` on two CPUs. -/
def taskListsInit : TaskLists ℕ ℕ :=
  ⟨kmtInit (fun i => 100 + i) (fun _ => 0) 2 (kmtBoot fun _ => ⟨fun _ => 0, 0, false, false, none⟩),
    spinLockInit, fun _ => spinLockInit⟩

theorem taskListStart_init : TaskListStart taskListsInit := ⟨rfl, rfl, rfl, fun _ _ => rfl⟩

/-- Three tasks, of which the one in the middle is torn down; so is what `idle_tasks[0]` points
at. -/
theorem taskList_living_three :
    ∃ s, runCalls 5 [.create 1 0, .create 2 0, .create 3 0, .teardown (some 2), .teardown none]
        taskListsInit = some s ∧
      TaskListInv taskListsInit.kmt.isIdle [3, 1] s ∧ s.kmt.taskCount = 2 := by
  have hvalid : ValidCalls taskListsInit.kmt.isIdle []
      ([.create 1 0, .create 2 0, .create 3 0, .teardown (some 2), .teardown none] :
        List (TaskCall ℕ ℕ)) :=
    ⟨⟨by decide, by decide⟩, ⟨by decide, by decide⟩, ⟨by decide, by decide⟩,
      Or.inr ⟨2, by decide, rfl⟩, Or.inl (by decide), trivial⟩
  obtain ⟨s, hrun, hinv, -⟩ := taskList_living taskListStart_init hvalid (Nat.le_refl 5)
  exact ⟨s, hrun, hinv, hinv.count⟩

end OsLab
