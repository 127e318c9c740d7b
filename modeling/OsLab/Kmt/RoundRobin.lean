import OsLab.Kmt.Sched
import Mathlib.Data.List.Rotate

/-! # The order in which `kmt_schedule` searches

The loop of `kmt_schedule` walks round `task_list` as round a cycle, from the
current task on, and stops at the first task it may run. `POLL_TIMES` is more
than the length of the list, so that the walk comes past every task, the current
one last, before the CPU falls back to idle.
-/

namespace OsLab

open Trace PtrList

variable {α γ : Type*}

/-! ## The walk -/

/-- The loop of `kmt_schedule` looks at the tasks `w` one after the other when it starts at `p`. -/
def Walk (k : Kmt α γ) : Option α → List α → Prop
  | _, [] => True
  | p, a :: w => nextTask k p = some a ∧ Walk k (some a) w

section Walk

variable {k : Kmt α γ} {p : Option α} {L l l' pre suf : List α}

theorem walk_append : Walk k p (l ++ l') ↔ Walk k p l ∧ Walk k (l.getLast?.or p) l' := by
  induction l generalizing p with
  | nil => simp [Walk]
  | cons a l ih =>
      have hlast : ((a :: l).getLast?).or p = l.getLast?.or (some a) := by
        cases l with
        | nil => rfl
        | cons b l => simp [List.getLast?_cons]
      rw [List.cons_append, Walk, Walk, ih, hlast, and_assoc]

/-- The walk follows the links. -/
theorem walk_of_chain (h : Chain (fun a => (k.task (some a)).next) (k.task p).next l) :
    Walk k p l := by
  induction l generalizing p with
  | nil => trivial
  | cons a l ih =>
      rcases chain_cons.1 h with ⟨ha, hl⟩
      refine ⟨?_, ih hl⟩
      unfold nextTask
      rw [ha, if_pos (by simp)]

/-- From a `NULL` link the walk goes back to `task_list`. -/
theorem walk_of_null (hp : (k.task p).next = none)
    (h : Chain (fun a => (k.task (some a)).next) k.taskList l) : Walk k p l := by
  cases l with
  | nil => trivial
  | cons a l =>
      rcases chain_cons.1 h with ⟨ha, hl⟩
      refine ⟨?_, walk_of_chain hl⟩
      unfold nextTask
      rw [hp, if_neg (by simp), ha]

/-- From a task of the list the walk comes past those behind it, then past those in front of it,
and then to the task itself. -/
theorem walk_cycle {t : α}
    (h : Chain (fun a => (k.task (some a)).next) k.taskList (pre ++ t :: suf)) :
    Walk k (some t) (suf ++ (pre ++ [t])) := by
  rw [walk_append]
  constructor
  · exact walk_of_chain h.next_of_append
  · have hnull : (k.task (suf.getLast?.or (some t))).next = none := by
      rcases suf.eq_nil_or_concat with rfl | ⟨suf, b, rfl⟩
      · exact chain_nil.1 h.next_of_append
      · have hb : (suf.concat b).getLast?.or (some t) = some b := by simp
        have hsplit : pre ++ t :: suf.concat b = (pre ++ t :: suf) ++ [b] := by simp
        rw [hsplit] at h
        rw [hb]
        exact chain_nil.1 h.next_of_append
    have hwalk := walk_of_null hnull h
    rw [List.append_cons, walk_append] at hwalk
    exact hwalk.1

end Walk

/-! ## What is selected -/

variable [DecidableEq α]

/-- `kmt_schedule` may run `t` on `cpu`. -/
def Kmt.runnable (k : Kmt α γ) (cpu : ℕ) (t : α) : Bool :=
  !(k.task (some t)).blocked &&
    (decide (k.currentTask cpu = some t) || !(k.task (some t)).running)

/-- The order in which the tasks `L` are searched from the current task: the cycle turned so that
the current task comes last, or all of the list from the idle slot. -/
def searchOrder (L : List α) : Option α → List α
  | none => L
  | some t => L.rotate (L.idxOf t + 1)

theorem searchOrder_append {t : α} {pre suf : List α} (ht : t ∉ pre) :
    searchOrder (pre ++ t :: suf) (some t) = suf ++ (pre ++ [t]) := by
  have hidx : (pre ++ t :: suf).idxOf t + 1 = (pre ++ [t]).length := by
    rw [List.idxOf_append_of_notMem ht, List.idxOf_cons_self, List.length_append,
      List.length_singleton, Nat.add_zero]
  change (pre ++ t :: suf).rotate ((pre ++ t :: suf).idxOf t + 1) = _
  rw [hidx, List.append_cons, List.rotate_append_length_eq]

theorem mem_searchOrder {L : List α} {p : Option α} {t : α} : t ∈ searchOrder L p ↔ t ∈ L := by
  cases p with
  | none => rfl
  | some u => exact List.mem_rotate

theorem length_searchOrder (L : List α) (p : Option α) : (searchOrder L p).length = L.length := by
  cases p with
  | none => rfl
  | some u => exact List.length_rotate _ _

section Poll

variable {k : Kmt α γ} {L w : List α} {saved : α → γ} {cpu n : ℕ} {p : Option α} {t : α}

/-- The loop walks round the list in the order of the search. -/
theorem TasksInv.walk (h : TasksInv k L saved) : Walk k (k.currentTask cpu)
    (searchOrder L (k.currentTask cpu)) := by
  cases hcur : k.currentTask cpu with
  | none => exact walk_of_null h.nullNext h.chain
  | some t =>
      rcases List.append_of_mem (h.onList t cpu (Or.inl hcur)) with ⟨pre, suf, rfl⟩
      have ht : t ∉ pre := by
        intro hpre
        exact (List.nodup_append.1 h.chain.nodup).2.2 t hpre t List.mem_cons_self rfl
      rw [searchOrder_append ht]
      exact walk_cycle h.chain

/-- One round of the loop. -/
theorem pollTasks_succ (hp : nextTask k p = some t) : pollTasks cpu (n + 1) p k =
    if k.runnable cpu t then
      if k.currentTask cpu = some t then resumeCurrent (some t) k else switchTo cpu (some t) k
    else pollTasks cpu n (some t) k := by
  rw [pollTasks, hp]
  unfold Kmt.runnable
  by_cases hcur : k.currentTask cpu = some t
  · simp only [hcur, if_true, decide_true, Bool.true_or, Bool.and_true]
    cases (k.task (some t)).blocked <;> rfl
  · simp only [hcur, Ne.symm hcur, if_false, decide_false, Bool.false_or]
    cases (k.task (some t)).blocked <;> cases (k.task (some t)).running <;> rfl

/-- The loop stops at the first runnable task of its walk. -/
theorem pollTasks_found (hw : Walk k p w) (hn : w.length ≤ n)
    (hfind : w.find? (k.runnable cpu) = some t) : pollTasks cpu n p k =
    if k.currentTask cpu = some t then resumeCurrent (some t) k else switchTo cpu (some t) k := by
  -- on the walk: every task in front of `t` costs a round
  induction w generalizing n p with
  | nil => cases hfind
  | cons a w ih =>
      obtain ⟨n, rfl⟩ : ∃ m, n = m + 1 := ⟨n - 1, by rw [List.length_cons] at hn; omega⟩
      rw [pollTasks_succ hw.1]
      rw [List.find?_cons] at hfind
      cases ha : k.runnable cpu a with
      | true =>
          rw [ha] at hfind
          cases hfind
          rfl
      | false =>
          rw [ha] at hfind
          exact ih hw.2 (Nat.le_of_succ_le_succ hn) hfind

/-- With no runnable task the loop ends in idle. -/
theorem TasksInv.pollTasks_idle (h : TasksInv k L saved) (hL : L ≠ [])
    (hp : ∀ a, p = some a → a ∈ L) (hnone : ∀ t ∈ L, k.runnable cpu t = false) :
    pollTasks cpu n p k = some (switchToIdle cpu k) := by
  -- on the rounds that are left, wherever the walk is
  induction n generalizing p with
  | zero => rfl
  | succ n ih =>
      rcases h.nextTask_mem hL hp with ⟨t, ht, hnext⟩
      rw [pollTasks_succ hnext, hnone t ht]
      apply ih
      rintro a ⟨⟩
      exact ht

end Poll

/-- What `kmt_schedule` selects on `cpu`: `k` is the state it starts in, with the tasks `L` on
`task_list`, and `k'` the one it leaves. -/
structure RoundRobin (cpu : ℕ) (k k' : Kmt α γ) (L : List α) : Prop where
  list : Chain (fun a => (k.task (some a)).next) k.taskList L
  count : k.taskCount = L.length
  /-- the first runnable task of the search, or idle -/
  selects : k'.currentTask cpu =
    ((searchOrder L (k.currentTask cpu)).find? (k.runnable cpu)).or (k.idleTasks cpu)
  /-- idle only when no task is runnable -/
  busy : k'.currentTask cpu = k.idleTasks cpu ↔ ∀ t ∈ L, k.runnable cpu t = false
  /-- the task is neither blocked nor on another CPU -/
  free : ∀ t, k'.currentTask cpu = some t →
    (k.task (some t)).blocked = false ∧ ∀ c, c ≠ cpu → ¬ k.OnCpu t c

/-- Between `kmt_context_save` and `kmt_schedule` the search finds the first runnable task. -/
theorem MidInv.roundRobin {k : Kmt α γ} {L : List α} {saved : α → γ} {cpu : ℕ}
    (h : MidInv cpu k L saved) (hL : L ≠ []) : ∃ answer k',
      kmtSchedule cpu k = some (answer, k') ∧ RoundRobin cpu k k' L := by
  have h' := (SameSched.deref k (k.currentTask cpu)).midInv h
  have hpoll : kmtSchedule cpu k = pollTasks cpu (k.taskCount * 2 + 2) (k.currentTask cpu)
      (k.deref (k.currentTask cpu)) := by
    unfold kmtSchedule
    rw [Kmt.setCurrent_idle h.idle]
  have hbound : (searchOrder L (k.currentTask cpu)).length ≤ k.taskCount * 2 + 2 := by
    rw [length_searchOrder, h.count]
    omega
  cases hfind : (searchOrder L (k.currentTask cpu)).find? (k.runnable cpu) with
  | none =>
      have hnone : ∀ t ∈ L, k.runnable cpu t = false := by
        intro t ht
        have hno := List.find?_eq_none.1 hfind t (mem_searchOrder.2 ht)
        rwa [Bool.not_eq_true] at hno
      -- nobody is runnable: the loop runs out
      have hidle := h'.toTasksInv.pollTasks_idle (n := k.taskCount * 2 + 2) hL
        (fun a ha => h.onList a cpu (Or.inl ha)) hnone
      have hcur := h'.switchToIdle.2
      generalize OsLab.switchToIdle cpu (k.deref (k.currentTask cpu)) = r at hidle hcur
      refine ⟨r.1, r.2, hpoll.trans hidle, h.chain, h.count, ?_, ?_, ?_⟩
      · rw [hcur, hfind, h.idle]
        rfl
      · rw [hcur, h.idle]
        exact ⟨fun _ => hnone, fun _ => rfl⟩
      · intro t ht
        rw [hcur] at ht
        cases ht
  | some t =>
      have ht : t ∈ L := mem_searchOrder.1 (List.mem_of_find?_eq_some hfind)
      have hrun : k.runnable cpu t = true := List.find?_some hfind
      have hfound : pollTasks cpu (k.taskCount * 2 + 2) (k.currentTask cpu)
          (k.deref (k.currentTask cpu)) = if k.currentTask cpu = some t then
            OsLab.resumeCurrent (some t) (k.deref (k.currentTask cpu))
          else OsLab.switchTo cpu (some t) (k.deref (k.currentTask cpu)) :=
        pollTasks_found h'.toTasksInv.walk hbound hfind
      -- either way `t` is selected
      have hgo : ∃ answer k', kmtSchedule cpu k = some (answer, k') ∧
          k'.currentTask cpu = some t ∧ ∀ c, c ≠ cpu → ¬ k.OnCpu t c := by
        rw [hpoll, hfound]
        by_cases hcur : k.currentTask cpu = some t
        -- the current task comes last, and goes on
        · rw [if_pos hcur]
          rcases h'.resumeCurrent ht hcur with ⟨k', hk', -, hcur'⟩
          refine ⟨_, k', hk', hcur', ?_⟩
          intro c hc hon
          exact hc (h.oneCpu t c cpu hon (Or.inl hcur))
        · rw [if_neg hcur]
          have hoff : (k.task (some t)).running = false := by
            unfold Kmt.runnable at hrun
            simpa [hcur] using (Bool.and_eq_true_iff.1 hrun).2
          rcases h'.switchTo ht hcur hoff with ⟨k', hk', -, hcur'⟩
          exact ⟨_, k', hk', hcur', fun c _ => h.not_onCpu ht hoff c⟩
      rcases hgo with ⟨answer, k', hsched, hcur', hfree⟩
      refine ⟨answer, k', hsched, h.chain, h.count, ?_, ?_, ?_⟩
      · rw [hcur', hfind]
        rfl
      · rw [hcur', h.idle]
        constructor
        · intro he
          cases he
        · intro hnone
          rw [hnone t ht] at hrun
          cases hrun
      · intro u hu
        obtain rfl := Option.some.inj (hcur'.symm.trans hu)
        refine ⟨?_, hfree⟩
        simpa using (Bool.and_eq_true_iff.1 hrun).1

/-- In every reachable state with a task on the list, a trap on any CPU gets to `kmt_schedule`,
which goes on with the first runnable task of the cycle. -/
theorem roundRobin_of_run {n : ℕ} {idleCtx : ℕ → γ} {h : List (KmtState α γ × KmtEvent α γ)}
    {s : KmtState α γ} (hr : KmtRun n idleCtx h s) (hlist : s.kmt.taskList ≠ none) (cpu : ℕ)
    (ctx : γ) (wakes : List (Option α)) : ∃ k answer k',
      kmtContextSave cpu ctx s.kmt = some k ∧
      kmtSchedule cpu (wakeAll wakes k) = some (answer, k') ∧
      RoundRobin cpu (wakeAll wakes k) k' s.created := by
  have hinv := hr.inv
  rcases hinv.saves cpu ctx with ⟨k, hsave, hs⟩
  have hmid := (SameSched.wakeAll wakes k).midInv (hs.midInv hinv)
  rcases hmid.roundRobin (hinv.created_ne_nil hlist) with ⟨answer, k', hsched, hrr⟩
  exact ⟨k, answer, k', hsave, hsched, hrr⟩

/-- Two tasks and two CPUs, of which the first runs the newer task. -/
theorem roundRobin_two_cpus : ∃ h s, KmtRun (α := Bool) 2 (fun _ => 0) h s ∧
    s.kmt.currentTask 0 = some false ∧ ∃ k answer k',
      kmtContextSave 1 11 s.kmt = some k ∧
      kmtSchedule 1 (wakeAll [] k) = some (answer, k') ∧
      RoundRobin 1 (wakeAll [] k) k' s.created := by
  rcases kmtStep_twoTasks 2 with ⟨s, st₁, st₂⟩
  have hr : KmtRun (α := Bool) 2 (fun _ => 0) _ _ :=
    Run.snoc (Run.snoc (Run.snoc (Run.start (kmtStart_zeroStart 2)) st₁) st₂)
      (show KmtStep 2 _ (.trap 0 10 [] 2 _) _ from .trap (by decide) (by decide) rfl)
  exact ⟨_, _, hr, rfl, roundRobin_of_run hr (by decide) 1 11 []⟩

end OsLab
