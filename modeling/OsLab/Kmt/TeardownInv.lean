import OsLab.Kmt.Teardown

/-! # What keeps the pointers to tasks sound

Between two steps the tasks that were created and not torn down are those on
`task_list` (`SchedInv`), and the entries of the semaphores are blocked tasks among
them, no task in two queues (`QueuesInv`). A `teardown` keeps this when the task is
neither running nor queued; every other step always does.
-/

namespace OsLab

open Trace PtrList

variable {ι α γ : Type*} [DecidableEq α]

/-! ## The semaphores -/

omit [DecidableEq α] in
/-- The ring only looks at the flags of its entries. -/
theorem RingInv.congr {m m' : SemMem α} (h : RingInv m) (hq : m'.waitQueue = m.waitQueue)
    (hh : m'.queueHead = m.queueHead) (ht : m'.queueTail = m.queueTail)
    (hbl : ∀ t, some t ∈ m.entries → m.blocked t = true → m'.blocked t = true) : RingInv m' := by
  have hent : m'.entries = m.entries := by
    unfold SemMem.entries
    rw [hq, hh, ht]
  rcases h.entries with ⟨L, hL, hnd, hall⟩
  refine ⟨hh ▸ h.head_lt, ht ▸ h.tail_lt, L, hent.trans hL, hnd, ?_⟩
  intro t htL
  apply hbl t _ (hall t htL)
  rw [hL]
  exact List.mem_map_of_mem htL

/-- The entries of the semaphores `q` are blocked tasks of `L`, each in one queue. -/
structure QueuesInv (q : ι → Sem α) (k : Kmt α γ) (L : List α) : Prop where
  ring : ∀ i, RingInv ((q i).mem k)
  queued : ∀ i t, some t ∈ (q i).entries → t ∈ L
  apart : ∀ i j t, some t ∈ (q i).entries → some t ∈ (q j).entries → i = j

namespace QueuesInv

variable {q : ι → Sem α} {k k' : Kmt α γ} {L L' : List α} {t : α}

omit [DecidableEq α] in
/-- Only the flags of the entries matter. -/
theorem congr (h : QueuesInv q k L)
    (hbl : ∀ i t, some t ∈ (q i).entries →
      (k'.task (some t)).blocked = (k.task (some t)).blocked)
    (hL : ∀ i t, some t ∈ (q i).entries → t ∈ L') : QueuesInv q k' L' where
  ring i := (h.ring i).congr rfl rfl rfl fun t ht hb => (hbl i t ht).trans hb
  queued := hL
  apart := h.apart

omit [DecidableEq α] in
theorem blocked (h : QueuesInv q k L) {i : ι} (ht : some t ∈ (q i).entries) :
    (k.task (some t)).blocked = true := by
  rcases (h.ring i).entries with ⟨W, hW, -, hall⟩
  have hmem : some t ∈ W.map some := hW ▸ ht
  rcases List.mem_map.1 hmem with ⟨u, hu, he⟩
  exact Option.some.inj he ▸ hall u hu

variable [DecidableEq ι]

omit [DecidableEq α] in
/-- One semaphore changes: its entries are old ones or were in no queue. -/
theorem update (h : QueuesInv q k L) {i : ι} {p : Sem α} (hring : RingInv (p.mem k'))
    (hent : ∀ u, some u ∈ p.entries → some u ∈ (q i).entries ∨
      (u ∈ L ∧ ∀ j, some u ∉ (q j).entries))
    (hbl : ∀ j u, j ≠ i → some u ∈ (q j).entries → (k.task (some u)).blocked = true →
      (k'.task (some u)).blocked = true) :
    QueuesInv (Function.update q i p) k' L := by
  have hother : ∀ j, j ≠ i → Function.update q i p j = q j := fun j hj =>
    Function.update_of_ne hj _ _
  -- no entry of the new queue is in another one
  have hcross : ∀ j u, j ≠ i → some u ∈ p.entries → some u ∉ (q j).entries := by
    intro j u hj hu hju
    rcases hent u hu with hold | ⟨-, hno⟩
    · exact hj (h.apart j i u hju hold)
    · exact hno j hju
  refine ⟨?_, ?_, ?_⟩
  · intro j
    by_cases hj : j = i
    · subst hj
      rwa [Function.update_self]
    · rw [hother j hj]
      exact (h.ring j).congr rfl rfl rfl fun u hu => hbl j u hj hu
  · intro j u hu
    by_cases hj : j = i
    · subst hj
      rw [Function.update_self] at hu
      rcases hent u hu with hold | ⟨huL, -⟩
      · exact h.queued j u hold
      · exact huL
    · rw [hother j hj] at hu
      exact h.queued j u hu
  · intro j j' u hu hu'
    by_cases hj : j = i
    · by_cases hj' : j' = i
      · rw [hj, hj']
      · rw [hj, Function.update_self] at hu
        rw [hother j' hj'] at hu'
        exact absurd hu' (hcross j' u hj' hu)
    · rw [hother j hj] at hu
      by_cases hj' : j' = i
      · rw [hj', Function.update_self] at hu'
        exact absurd hu (hcross j u hj hu')
      · rw [hother j' hj'] at hu'
        exact h.apart j j' u hu hu'

/-- `sem_wait` of a task that is not blocked. -/
theorem wait (h : QueuesInv q k L) (i : ι) (ht : t ∈ L)
    (hfree : (k.task (some t)).blocked = false) :
    QueuesInv (Function.update q i ((q i).wait (some t) k).1) ((q i).wait (some t) k).2 L := by
  have hno : ∀ j, some t ∉ (q j).entries := by
    intro j hj
    rw [h.blocked hj] at hfree
    cases hfree
  by_cases hpos : (q i).resource > 0
  · unfold Sem.wait
    rw [if_pos hpos]
    exact h.update ((h.ring i).congr rfl rfl rfl fun _ _ hb => hb) (fun u hu => Or.inl hu)
      fun _ _ _ _ hb => hb
  · have hring := (h.ring i).block hfree
    unfold Sem.wait
    rw [if_neg hpos]
    -- the task goes to the end of the queue
    refine h.update ?_ ?_ ?_
    · rw [Sem.mem_setBlocked]
      exact hring
    · intro u hu
      rcases Ring.mem_window_push (h.ring i).head_lt (h.ring i).tail_lt hu with hu | hu
      · exact Or.inl hu
      · obtain rfl := Option.some.inj hu
        exact Or.inr ⟨ht, hno⟩
    · intro j u _ _ hb
      rw [setBlocked_blocked]
      split
      · rfl
      · exact hb

omit [DecidableEq ι] in
/-- The entry that `sem_signal` takes from a queue that is not empty. -/
theorem head (h : QueuesInv q k L) {i : ι} (hne : (q i).queueHead ≠ (q i).queueTail) :
    ∃ u, (q i).waitQueue (q i).queueHead = some u ∧ (q i).entries = some u ::
      Ring.window SEM_CAPACITY (q i).waitQueue (((q i).queueHead + 1) % SEM_CAPACITY)
        (q i).queueTail := by
  rcases (h.ring i).handOver hne with ⟨u, hu, -, -⟩
  refine ⟨u, hu, ?_⟩
  rw [← hu]
  exact Ring.window_pop (h.ring i).head_lt (h.ring i).tail_lt hne

theorem signal (h : QueuesInv q k L) (i : ι) :
    QueuesInv (Function.update q i ((q i).signal k).1) ((q i).signal k).2 L := by
  by_cases hc : (q i).queueHead ≠ (q i).queueTail ∧ (q i).resource = 0
  · rcases h.head hc.1 with ⟨u, hu, hpop⟩
    rcases (h.ring i).handOver hc.1 with ⟨u', hu', -, hring⟩
    obtain rfl : u = u' := Option.some.inj (hu.symm.trans hu')
    unfold Sem.signal
    rw [if_pos hc, hu]
    refine h.update ?_ ?_ ?_
    · rw [Sem.mem_setBlocked]
      exact hring
    · intro v hv
      rw [hpop]
      exact Or.inl (List.mem_cons_of_mem _ hv)
    -- the task that is woken is in no other queue, so the others stay blocked
    · intro j v hj hv hb
      have hmem : some u ∈ (q i).entries := by
        rw [hpop]
        exact List.mem_cons_self
      rw [setBlocked_blocked, if_neg]
      · exact hb
      · intro he
        rw [← he] at hv
        exact hj (h.apart j i u hv hmem)
  · unfold Sem.signal
    rw [if_neg hc]
    exact h.update ((h.ring i).congr rfl rfl rfl fun _ _ hb => hb) (fun u hu => Or.inl hu)
      fun _ _ _ _ hb => hb

theorem signalAll (h : QueuesInv q k L) (is : List ι) :
    QueuesInv (OsLab.signalAll is q k).1 (OsLab.signalAll is q k).2 L := by
  induction is generalizing q k with
  | nil => exact h
  | cons i is ih => exact ih (h.signal i)

end QueuesInv

/-! ## The scheduler -/

section Sched

variable {k k' : Kmt α γ} {L : List α} {saved : α → γ} {cpu : ℕ}

theorem SameSched.signal (q : Sem α) (k : Kmt α γ) : SameSched k (q.signal k).2 := by
  unfold Sem.signal
  split
  · exact SameSched.setBlocked _ _ _
  · exact SameSched.refl k

theorem SameSched.wait (t : Option α) (q : Sem α) (k : Kmt α γ) : SameSched k (q.wait t k).2 := by
  unfold Sem.wait
  split
  · exact SameSched.refl k
  · exact SameSched.setBlocked _ _ _

theorem SameSched.signalAll [DecidableEq ι] (is : List ι) (q : ι → Sem α) (k : Kmt α γ) :
    SameSched k (signalAll is q k).2 := by
  induction is generalizing q k with
  | nil => exact SameSched.refl k
  | cons i is ih => exact (SameSched.signal (q i) k).trans (ih _ _)

/-- However the loop of `kmt_schedule` ends, the `blocked` flags stay. -/
theorem pollTasks_blocked {n : ℕ} {p : Option α} {answer : γ}
    (h : pollTasks cpu n p k = some (answer, k')) (q : Option α) :
    (k'.task q).blocked = (k.task q).blocked := by
  induction n generalizing p with
  | zero =>
      rcases Prod.mk.inj (Option.some.inj h) with ⟨-, rfl⟩
      rfl
  | succ n ih =>
      rw [pollTasks] at h
      split at h
      · split at h
        · exact ih h
        · unfold resumeCurrent at h
          rcases Option.map_eq_some_iff.1 h with ⟨i, -, he⟩
          rcases Prod.mk.inj he with ⟨-, rfl⟩
          exact Kmt.setTask_field _ _ _ Task.blocked rfl q
      · split at h
        · exact ih h
        · unfold switchTo at h
          rcases Option.map_eq_some_iff.1 h with ⟨i, -, he⟩
          rcases Prod.mk.inj he with ⟨-, rfl⟩
          rw [Kmt.setCurrent_task]
          exact Kmt.setTask_field _ _ _ Task.blocked rfl q

theorem MidInv.schedule_blocked (h : MidInv cpu k L saved) {answer : γ}
    (hsched : kmtSchedule cpu k = some (answer, k')) (q : Option α) :
    (k'.task q).blocked = (k.task q).blocked := by
  unfold kmtSchedule at hsched
  rw [Kmt.setCurrent_idle h.idle] at hsched
  exact pollTasks_blocked hsched q

omit [DecidableEq α] in
/-- With no task on the list nothing can go wrong but `task_list`. -/
theorem TasksInv.schedInv_nil (h : TasksInv k [] saved) (hlist : k'.taskList = k.taskList)
    (hcount : k'.taskCount = k.taskCount) (hidle : k'.idleTasks = k.idleTasks)
    (hcur : k'.currentTask = k.currentTask) (hlast : k'.lastTask = k.lastTask)
    (hnext : (k'.task none).next = (k.task none).next) : SchedInv k' [] saved := by
  have hoff : ∀ t c, ¬ k'.OnCpu t c := by
    intro t c hc
    unfold Kmt.OnCpu at hc
    rw [hcur, hlast] at hc
    exact List.not_mem_nil (h.onList t c hc)
  refine ⟨⟨?_, hcount.trans h.count, ?_, hnext.trans h.nullNext, ?_, ?_, ?_, ?_⟩, ?_⟩
  · rw [hlist]
    exact chain_nil.2 (chain_nil.1 h.chain)
  · intro c
    rw [hidle]
    exact h.idle c
  · exact fun t c hc => absurd hc (hoff t c)
  · exact fun t c d hc => absurd hc (hoff t c)
  · simp
  · simp
  · simp

/-- A trap without any task: the search meets the idle slot at `NULL` only. -/
theorem MidInv.schedule_nil (h : MidInv cpu k [] saved) {answer : γ}
    (hsched : kmtSchedule cpu k = some (answer, k')) : SchedInv k' [] saved := by
  have hcur : k.currentTask cpu = none := by
    cases hc : k.currentTask cpu with
    | none => rfl
    | some t => exact absurd (h.onList t cpu (Or.inl hc)) List.not_mem_nil
  unfold kmtSchedule at hsched
  rw [Kmt.setCurrent_idle h.idle] at hsched
  simp only [hcur] at hsched
  have h' := (SameSched.deref k none).midInv h
  have hnext : nextTask (k.deref none) none = none := by
    unfold nextTask
    rw [h'.nullNext, if_neg (by simp)]
    exact chain_nil.1 h.chain
  have hcur' : (k.deref none).currentTask cpu = none := hcur
  -- every round comes back to the idle slot
  generalize k.deref none = k₁ at h' hnext hcur' hsched
  generalize k.taskCount * 2 + 2 = n at hsched
  induction n with
  | zero =>
      rcases Prod.mk.inj (Option.some.inj hsched) with ⟨-, rfl⟩
      exact h'.switchToIdle.1
  | succ n ih =>
      rw [pollTasks, hnext] at hsched
      simp only [hcur', if_true] at hsched
      split at hsched
      · exact ih hsched
      · unfold OsLab.resumeCurrent at hsched
        rcases Option.map_eq_some_iff.1 hsched with ⟨i, -, he⟩
        rcases Prod.mk.inj he with ⟨-, rfl⟩
        refine h'.toTasksInv.schedInv_nil rfl rfl rfl rfl rfl ?_
        rw [Kmt.setTask_self]

/-- A trap, whatever its handlers signal. -/
theorem SchedInv.trapStep (h : SchedInv k L saved) {ctx answer : γ} {k₁ k₂ : Kmt α γ}
    (hsave : kmtContextSave cpu ctx k = some k₁) (hsig : SameSched k₁ k₂)
    (hsched : kmtSchedule cpu k₂ = some (answer, k')) :
    MidInv cpu k₂ L (savedAfter (k.currentTask cpu) ctx saved) ∧
    SchedInv k' L (savedAfter (k.currentTask cpu) ctx saved) := by
  rcases h.saves cpu ctx with ⟨k₁', hsave', hs⟩
  obtain rfl := Option.some.inj (hsave.symm.trans hsave')
  have hmid := hsig.midInv (hs.midInv h)
  refine ⟨hmid, ?_⟩
  by_cases hL : L = []
  · subst hL
    exact hmid.schedule_nil hsched
  · rcases hmid.schedule hL with ⟨answer', k'', hsched', hinv, -⟩
    rcases Prod.mk.inj (Option.some.inj (hsched.symm.trans hsched')) with ⟨-, rfl⟩
    exact hinv

end Sched

/-! ## `teardown` -/

section Teardown

variable {k k' : Kmt α γ} {L pre suf : List α} {saved : α → γ} {t b : α}

/-- The loop finds the task in front of `t` after as many rounds as there are tasks up to it. -/
theorem unlinkTask_eq {p : Option α} (fuel : ℕ)
    (h : Chain (fun a => (k.task (some a)).next) p (pre ++ b :: t :: suf)) :
    unlinkTask (some t) fuel p k =
      if pre.length < fuel then
        some (k.setTask (some b) fun x => { x with next := (k.task (some t)).next })
      else none := by
  induction fuel generalizing pre p with
  | zero => rw [if_neg (Nat.not_lt_zero _), unlinkTask]
  | succ fuel ih =>
      have hnd := h.nodup
      cases pre with
      | nil =>
          rcases chain_cons.1 h with ⟨rfl, hb⟩
          rw [unlinkTask, if_neg (by simp), if_pos (chain_cons.1 hb).1, if_pos (by simp)]
      | cons a pre =>
          rcases chain_cons.1 h with ⟨rfl, ha⟩
          -- `t` is not next, for it comes behind `b`
          have hne : (k.task (some a)).next ≠ some t := by
            intro he
            rw [he] at ha
            cases pre with
            | nil =>
                rcases chain_cons.1 ha with ⟨hbt, -⟩
                simp [Option.some.inj hbt] at hnd
            | cons c pre =>
                rcases chain_cons.1 ha with ⟨hct, -⟩
                simp [Option.some.inj hct] at hnd
          rw [unlinkTask, if_neg (by simp), if_neg hne, ih ha]
          simp only [List.length_cons, Nat.add_lt_add_iff_right]

/-- What `teardown` of a task that is on no CPU does to the others. -/
structure Unlinks (k k' : Kmt α γ) (L : List α) (t : α) : Prop where
  chain : Chain (fun a => (k'.task (some a)).next) k'.taskList (L.erase t)
  taskCount : k'.taskCount = k.taskCount - 1
  idleTasks : k'.idleTasks = k.idleTasks
  currentTask : k'.currentTask = k.currentTask
  lastTask : k'.lastTask = k.lastTask
  null : k'.task none = k.task none
  task : ∀ p, k'.task p = { k.task p with next := (k'.task p).next }

theorem Kmt.isIdle_some (hidle : ∀ c, k.idleTasks c = none) (t : α) :
    k.isIdle (some t) = false := by
  unfold Kmt.isIdle
  simp [hidle]

/-- Only the link of the task in front of `t` changes, which skips over `t`. -/
structure Bypasses (k k' : Kmt α γ) (L : List α) (t : α) : Prop where
  pred : ∀ u ∈ L, (k.task (some u)).next = some t →
    k'.task (some u) = { k.task (some u) with next := (k.task (some t)).next }
  others : ∀ p, (∀ u ∈ L, p = some u → (k.task p).next ≠ some t) → k'.task p = k.task p

/-- `teardown` of a task on the list takes it out, with fewer rounds than there are tasks. -/
theorem teardown_eq (hchain : Chain (fun a => (k.task (some a)).next) k.taskList L)
    (hidle : k.isIdle (some t) = false) (ht : t ∈ L) :
    ∃ k', Unlinks k k' L t ∧ Bypasses k k' L t ∧ ∃ m < L.length, ∀ fuel,
      teardown fuel (some t) k = if m < fuel ∨ k.taskList = some t then some k' else none := by
  unfold teardown
  rw [hidle]
  simp only [Bool.false_eq_true, if_false]
  by_cases hhead : some t = k.taskList
  · rw [← hhead] at hchain ⊢
    refine ⟨{ k with taskList := (k.task (some t)).next, taskCount := k.taskCount - 1 }, ?_, ?_, 0,
      List.length_pos_of_mem ht, ?_⟩
    · refine ⟨?_, rfl, rfl, rfl, rfl, rfl, fun _ => rfl⟩
      rcases chain_some.1 hchain with ⟨L', rfl, hL'⟩
      rw [List.erase_cons_head]
      exact hL'
    · exact ⟨fun u hu he => absurd he (hchain.next_ne_head hu), fun _ _ => rfl⟩
    · intro fuel
      simp
  · have htail : ∃ pre b suf, L = pre ++ b :: t :: suf := by
      apply exists_pred_of_mem_tail
      cases L with
      | nil => cases ht
      | cons a L =>
          rcases List.mem_cons.1 ht with rfl | ht
          · exact absurd (chain_cons.1 hchain).1.symm hhead
          · exact ht
    rcases htail with ⟨pre, b, suf, rfl⟩
    have hnd := hchain.nodup
    have hbt : t ≠ b := by
      rintro rfl
      simp [List.nodup_append] at hnd
    have htpre : t ∉ pre := by
      intro hmem
      exact (List.nodup_append.1 hnd).2.2 t hmem t (by simp) rfl
    have hb : b ∈ pre ++ b :: t :: suf := by simp
    have hbnext : (k.task (some b)).next = some t :=
      (chain_cons.1 hchain.next_of_append).1
    -- `b`, in front of `t`, gets the link of `t`
    let k₁ := k.setTask (some b) fun x => { x with next := (k.task (some t)).next }
    have hself : k₁.task (some b) = { k.task (some b) with next := (k.task (some t)).next } :=
      Kmt.setTask_self _ _ _
    have hother : ∀ p, p ≠ some b → k₁.task p = k.task p := fun p hp => Kmt.setTask_of_ne _ _ _ hp
    refine ⟨{ k₁ with taskCount := k.taskCount - 1 }, ?_, ?_, pre.length, ?_, ?_⟩
    · refine ⟨?_, rfl, rfl, rfl, rfl, hother none (Option.some_ne_none b).symm, ?_⟩
      · have herase : (pre ++ b :: t :: suf).erase t = pre ++ b :: suf := by
          rw [List.erase_append_right _ htpre, List.erase_cons, if_neg (by simpa using Ne.symm hbt),
            List.erase_cons_head]
        rw [herase]
        apply hchain.unlink.congr
        intro a _
        change (k₁.task (some a)).next = _
        by_cases hab : a = b
        · subst hab
          rw [hself, Function.update_self]
        · rw [hother _ fun he => hab (Option.some.inj he), Function.update_of_ne hab]
      · intro p
        change k₁.task p = { k.task p with next := (k₁.task p).next }
        by_cases hp : p = some b
        · rw [hp, hself]
        · rw [hother p hp]
    · refine ⟨fun u hu he => ?_, fun p hp => hother p ?_⟩
      · obtain rfl : u = b := hchain.eq_of_next_eq hu hb he hbnext
        exact hself
      · rintro rfl
        exact hp b hb rfl hbnext
    · simp
    · intro fuel
      rw [if_neg hhead, unlinkTask_eq fuel hchain]
      by_cases hfuel : pre.length < fuel
      · rw [if_pos hfuel, if_pos (Or.inl hfuel)]
        rfl
      · rw [if_neg hfuel, if_neg]
        · rfl
        · rintro (hlt | he)
          · exact hfuel hlt
          · exact hhead he.symm

theorem TasksInv.teardown_eq (h : TasksInv k L saved) (ht : t ∈ L) : ∃ k', Unlinks k k' L t ∧
    ∃ m, ∀ fuel, teardown fuel (some t) k = if m < fuel ∨ k.taskList = some t then some k'
      else none := by
  rcases OsLab.teardown_eq h.chain (Kmt.isIdle_some h.idle t) ht with ⟨k', hu, -, m, -, hm⟩
  exact ⟨k', hu, m, hm⟩

/-- `teardown` returns. -/
theorem TasksInv.exists_teardown (h : TasksInv k L saved) (ht : t ∈ L) :
    ∃ fuel k', teardown fuel (some t) k = some k' := by
  rcases h.teardown_eq ht with ⟨k', -, m, hm⟩
  exact ⟨m + 1, k', (hm (m + 1)).trans (if_pos (Or.inl (Nat.lt_succ_self m)))⟩

theorem TasksInv.unlinks (h : TasksInv k L saved) (ht : t ∈ L) {fuel : ℕ}
    (hk : teardown fuel (some t) k = some k') : Unlinks k k' L t := by
  rcases h.teardown_eq ht with ⟨k'', hu, m, hm⟩
  rw [hm fuel] at hk
  split at hk
  · exact Option.some.inj hk ▸ hu
  · cases hk

/-- Tearing down a task that is on no CPU keeps the invariant. -/
theorem SchedInv.teardown (h : SchedInv k L saved) (hu : Unlinks k k' L t) (ht : t ∈ L)
    (hrun : (k.task (some t)).running = false) : SchedInv k' (L.erase t) saved := by
  -- the CPUs are not touched
  have hon : ∀ u c, k'.OnCpu u c ↔ k.OnCpu u c := by
    intro u c
    unfold Kmt.OnCpu
    rw [hu.currentTask, hu.lastTask]
  have hmem : ∀ {u}, u ∈ L.erase t → u ∈ L := List.mem_of_mem_erase
  refine ⟨⟨hu.chain, ?_, ?_, ?_, ?_, ?_, ?_, ?_⟩, ?_⟩
  · rw [hu.taskCount, h.count, List.length_erase_of_mem ht]
  · rw [hu.idleTasks]
    exact h.idle
  · rw [hu.null]
    exact h.nullNext
  · intro u c hc
    rw [hon] at hc
    refine (List.mem_erase_of_ne ?_).2 (h.onList u c hc)
    rintro rfl
    exact h.not_onCpu ht hrun c hc
  · intro u c d hc hd
    exact h.oneCpu u c d ((hon u c).1 hc) ((hon u d).1 hd)
  · intro u hu'
    rw [hu.task]
    simp only [hon]
    exact h.running u (hmem hu')
  · intro u hu'
    rw [hu.task]
    exact h.context u (hmem hu')
  · intro u hu'
    unfold NestOk Kmt.Leaving
    rw [hu.task, hu.currentTask, hu.lastTask]
    exact h.nest u (hmem hu')

end Teardown

end OsLab
