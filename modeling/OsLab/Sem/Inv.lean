import OsLab.Sem.Basic
import Mathlib.Data.List.Nodup

/-! # The invariant of a semaphore

`SemInv` holds in every state of every run, also when the ring of waiters has
wrapped round on itself: its entries are always distinct blocked tasks, so
`sem_signal` never meets a `NULL` entry and never wakes a task that is not
waiting. What the ring loses when it wraps round is the subject of
`OsLab.Sem.Fifo`.
-/

namespace OsLab

open Trace

variable {α : Type*} [DecidableEq α]

/-! ## The critical sections -/

section Sections

variable {t : α} {m m' : SemMem α}

theorem semWait_pass (h : semWait t m = (true, m')) :
    0 < m.resource ∧ m' = { m with resource := m.resource - 1 } := by
  unfold semWait at h
  split at h
  · rename_i hpos
    exact ⟨hpos, (Prod.mk.inj h).2.symm⟩
  · cases (Prod.mk.inj h).1

theorem semWait_block (h : semWait t m = (false, m')) :
    m.resource ≤ 0 ∧ m' = { m with
      blocked := Function.update m.blocked t true
      waitQueue := Function.update m.waitQueue m.queueTail (some t)
      queueTail := (m.queueTail + 1) % SEM_CAPACITY } := by
  unfold semWait at h
  split at h
  · cases (Prod.mk.inj h).1
  · rename_i hpos
    exact ⟨by omega, (Prod.mk.inj h).2.symm⟩

/-- Everything `sem_signal` can do: hand over to the task at the head, or count up. -/
theorem semSignal_cases {popped : Option α} (h : semSignal m = some (popped, m')) :
    (∃ u, popped = some u ∧ m.queueHead ≠ m.queueTail ∧ m.resource = 0 ∧
      m.waitQueue m.queueHead = some u ∧ m' = { m with
        blocked := Function.update m.blocked u false
        queueHead := (m.queueHead + 1) % SEM_CAPACITY }) ∨
    (popped = none ∧ (m.queueHead = m.queueTail ∨ m.resource ≠ 0) ∧
      m' = { m with resource := m.resource + 1 }) := by
  unfold semSignal at h
  split at h
  · rename_i hc
    rcases Option.map_eq_some_iff.1 h with ⟨u, hu, he⟩
    rcases Prod.mk.inj he with ⟨h1, h2⟩
    exact Or.inl ⟨u, h1.symm, hc.1, hc.2, hu, h2.symm⟩
  · rename_i hc
    rcases Prod.mk.inj (Option.some.inj h) with ⟨h1, h2⟩
    refine Or.inr ⟨h1.symm, ?_, h2.symm⟩
    by_contra hno
    rw [not_or, not_not] at hno
    exact hc hno

end Sections

/-! ## Counters -/

@[simp] theorem bump_self (f : α → ℕ) (t : α) : bump f t t = f t + 1 := by
  simp [bump]

theorem bump_of_ne (f : α → ℕ) {t u : α} (h : u ≠ t) : bump f t u = f u := by
  simp [bump, h]

/-! ## The invariant -/

/-- The entries of the ring are distinct tasks that are blocked. -/
structure RingInv (m : SemMem α) : Prop where
  head_lt : m.queueHead < SEM_CAPACITY
  tail_lt : m.queueTail < SEM_CAPACITY
  entries : ∃ L : List α, m.entries = L.map some ∧ L.Nodup ∧ ∀ t ∈ L, m.blocked t = true

/-- Entering a task that is not blocked. -/
theorem RingInv.block {m : SemMem α} (h : RingInv m) {t : α} (ht : m.blocked t = false) :
    RingInv { m with
      blocked := Function.update m.blocked t true
      waitQueue := Function.update m.waitQueue m.queueTail (some t)
      queueTail := (m.queueTail + 1) % SEM_CAPACITY } := by
  rcases h.entries with ⟨L, hL, hnd, hbl⟩
  have hsucc := Ring.succ_mod_lt h.tail_lt
  refine ⟨h.head_lt, hsucc, ?_⟩
  have htL : t ∉ L := by
    intro hmem
    rw [hbl t hmem] at ht
    cases ht
  by_cases hfull : (m.queueTail + 1) % SEM_CAPACITY = m.queueHead
  · -- the ring wraps round and looks empty
    exact ⟨[], (Ring.window_eq_nil_iff h.head_lt hsucc).2 hfull.symm, List.nodup_nil, by simp⟩
  · have hpush := Ring.Holds.push ⟨h.head_lt, h.tail_lt, hL⟩ hfull (some t)
    refine ⟨L ++ [t], ?_, ?_, ?_⟩
    · rw [List.map_append]
      exact hpush.window
    · exact List.nodup_append.2 ⟨hnd, List.nodup_singleton t, by
        intro a ha b hb hab
        exact htL ((List.mem_singleton.1 hb) ▸ hab ▸ ha)⟩
    · intro u hu
      by_cases hut : u = t
      · subst hut
        exact Function.update_self _ _ _
      · change Function.update m.blocked t true u = true
        rw [Function.update_of_ne hut]
        rcases List.mem_append.1 hu with hu | hu
        · exact hbl u hu
        · exact absurd (List.mem_singleton.1 hu) hut

/-- Handing over to the head of a ring that is not empty: the head is blocked, and the rest of
the entries stays. -/
theorem RingInv.handOver {m : SemMem α} (h : RingInv m) (hne : m.queueHead ≠ m.queueTail) :
    ∃ u, m.waitQueue m.queueHead = some u ∧ m.blocked u = true ∧ RingInv { m with
      blocked := Function.update m.blocked u false
      queueHead := (m.queueHead + 1) % SEM_CAPACITY } := by
  rcases h.entries with ⟨L, hL, hnd, hbl⟩
  have hholds : Ring.Holds SEM_CAPACITY m.waitQueue m.queueHead m.queueTail (L.map some) :=
    ⟨h.head_lt, h.tail_lt, hL⟩
  cases L with
  | nil => exact absurd (hholds.eq_iff.2 rfl) hne
  | cons u L =>
      rw [List.map_cons] at hholds
      rcases hholds.pop with ⟨hhead, hrest⟩
      rcases List.nodup_cons.1 hnd with ⟨huL, hnd⟩
      refine ⟨u, hhead, hbl u List.mem_cons_self, hrest.head_lt, hrest.tail_lt, L, hrest.window,
        hnd, ?_⟩
      intro t ht
      have htu : t ≠ u := by
        rintro rfl
        exact huL ht
      change Function.update m.blocked u false t = true
      rw [Function.update_of_ne htu]
      exact hbl t (List.mem_cons_of_mem _ ht)

/-- `sem_signal` never meets a `NULL` entry. -/
theorem RingInv.exists_semSignal {m : SemMem α} (h : RingInv m) :
    ∃ popped m', semSignal m = some (popped, m') := by
  by_cases hc : m.queueHead ≠ m.queueTail ∧ m.resource = 0
  · obtain ⟨u, hu, -⟩ := h.handOver hc.1
    rw [semSignal, if_pos hc, hu]
    exact ⟨some u, _, rfl⟩
  · exact ⟨none, _, if_neg hc⟩

/-- The invariant of all runs from `sem_init(value)`. -/
structure SemInv (value : ℤ) (s : SemState α) : Prop where
  ring : RingInv s.mem
  count : s.mem.resource = value + s.signals - s.grants
  nonneg : 0 ≤ value → 0 ≤ s.mem.resource
  waiting : ∀ t, s.mem.blocked t = true ↔ t ∈ s.waiting
  nodup : s.waiting.Nodup
  inLoop : ∀ t, s.mem.blocked t = true → s.inLoop t = true
  called : ∀ t, s.called t = s.left t + (if s.inLoop t then 1 else 0)
  granted : ∀ t, s.granted t = s.left t + (if s.inLoop t && !s.mem.blocked t then 1 else 0)

omit [DecidableEq α] in
theorem semInv_start (value : ℤ) : SemInv value (semStart value : SemState α) where
  ring := by
    have hpos : 0 < SEM_CAPACITY := Nat.two_pow_pos 8
    exact ⟨hpos, hpos, [], (Ring.window_eq_nil_iff hpos hpos).2 rfl, List.nodup_nil, by simp⟩
  count := by simp [semStart, semInit]
  nonneg h := h
  waiting := by simp [semStart, semInit]
  nodup := List.nodup_nil
  inLoop := by simp [semStart, semInit]
  called := by simp [semStart]
  granted := by simp [semStart]

section Step

variable {value : ℤ} {s : SemState α} {t : α}

omit [DecidableEq α] in
theorem SemInv.blocked_of_not_inLoop (h : SemInv value s) (ht : s.inLoop t = false) :
    s.mem.blocked t = false := by
  rw [← Bool.not_eq_true]
  intro hbl
  rw [h.inLoop t hbl] at ht
  cases ht

theorem SemInv.pass (h : SemInv value s) (ht : s.inLoop t = false) (hpos : 0 < s.mem.resource) :
    SemInv value { s with
      mem := { s.mem with resource := s.mem.resource - 1 }
      called := bump s.called t
      granted := bump s.granted t
      left := bump s.left t
      grants := s.grants + 1 } where
  ring := ⟨h.ring.head_lt, h.ring.tail_lt, h.ring.entries⟩
  count := by
    have := h.count
    push_cast
    omega
  nonneg _ := by
    simp only
    omega
  waiting := h.waiting
  nodup := h.nodup
  inLoop := h.inLoop
  called u := by
    have := h.called u
    by_cases hut : u = t
    · subst hut
      simp only [bump_self]
      omega
    · simpa only [bump_of_ne _ hut] using this
  granted u := by
    have := h.granted u
    by_cases hut : u = t
    · subst hut
      simp only [bump_self]
      omega
    · simpa only [bump_of_ne _ hut] using this

theorem SemInv.block (h : SemInv value s) (ht : s.inLoop t = false) :
    SemInv value { s with
      mem := { s.mem with
        blocked := Function.update s.mem.blocked t true
        waitQueue := Function.update s.mem.waitQueue s.mem.queueTail (some t)
        queueTail := (s.mem.queueTail + 1) % SEM_CAPACITY }
      inLoop := Function.update s.inLoop t true
      waiting := s.waiting ++ [t]
      called := bump s.called t } where
  ring := h.ring.block (h.blocked_of_not_inLoop ht)
  count := h.count
  nonneg := h.nonneg
  waiting u := by
    have := h.waiting u
    by_cases hut : u = t
    · subst hut
      simp
    · simpa [Function.update_of_ne hut, hut] using this
  nodup := by
    refine List.nodup_append.2 ⟨h.nodup, List.nodup_singleton t, ?_⟩
    intro a ha b hb hab
    have hta : t ∈ s.waiting := (List.mem_singleton.1 hb) ▸ hab ▸ ha
    rw [← h.waiting, h.blocked_of_not_inLoop ht] at hta
    cases hta
  inLoop u hu := by
    by_cases hut : u = t
    · subst hut
      exact Function.update_self _ _ _
    · simp only [Function.update_of_ne hut] at hu ⊢
      exact h.inLoop u hu
  called u := by
    have := h.called u
    by_cases hut : u = t
    · subst hut
      simp only [ht] at this
      simp only [bump_self, Function.update_self]
      simpa using this
    · simpa only [bump_of_ne _ hut, Function.update_of_ne hut] using this
  granted u := by
    have := h.granted u
    by_cases hut : u = t
    · subst hut
      simp only [ht] at this
      simp only [Function.update_self]
      simpa using this
    · simpa only [Function.update_of_ne hut] using this

theorem SemInv.leave (h : SemInv value s) (ht : s.inLoop t = true)
    (hbl : s.mem.blocked t = false) :
    SemInv value { s with
      inLoop := Function.update s.inLoop t false
      left := bump s.left t } where
  ring := h.ring
  count := h.count
  nonneg := h.nonneg
  waiting := h.waiting
  nodup := h.nodup
  inLoop u hu := by
    by_cases hut : u = t
    · subst hut
      simp only at hu
      rw [hbl] at hu
      cases hu
    · simp only [Function.update_of_ne hut]
      exact h.inLoop u hu
  called u := by
    have := h.called u
    by_cases hut : u = t
    · subst hut
      simp only [ht] at this
      simp only [bump_self, Function.update_self]
      simpa using this
    · simpa only [bump_of_ne _ hut, Function.update_of_ne hut] using this
  granted u := by
    have := h.granted u
    by_cases hut : u = t
    · subst hut
      simp only [ht, hbl] at this
      simp only [bump_self, Function.update_self]
      simpa using this
    · simpa only [bump_of_ne _ hut, Function.update_of_ne hut] using this

theorem SemInv.handOver (h : SemInv value s) (caller : Option α) {u : α}
    (hne : s.mem.queueHead ≠ s.mem.queueTail)
    (hu : s.mem.waitQueue s.mem.queueHead = some u) :
    SemInv value { s with
      mem := { s.mem with
        blocked := Function.update s.mem.blocked u false
        queueHead := (s.mem.queueHead + 1) % SEM_CAPACITY }
      waiting := s.waiting.filter fun t => decide (some u ≠ some t)
      granted := bumpSome s.granted (some u)
      signalled := bumpSome s.signalled caller
      signals := s.signals + 1
      grants := s.grants + 1 } := by
  rcases h.ring.handOver hne with ⟨v, hv, hbl, hring⟩
  obtain rfl : u = v := Option.some.inj (hu.symm.trans hv)
  refine ⟨hring, ?_, h.nonneg, ?_, h.nodup.filter _, ?_, h.called, ?_⟩
  · have := h.count
    push_cast
    omega
  · intro t
    have := h.waiting t
    by_cases htu : t = u
    · subst htu
      simp
    · simpa [Function.update_of_ne htu, List.mem_filter, Ne.symm htu] using this
  · intro t ht
    by_cases htu : t = u
    · subst htu
      simp at ht
    · simp only [Function.update_of_ne htu] at ht
      exact h.inLoop t ht
  · intro t
    have := h.granted t
    by_cases htu : t = u
    · subst htu
      have hin := h.inLoop t hbl
      simp only [hbl, hin] at this
      simp only [bumpSome, bump_self, Function.update_self, hin]
      simpa using this
    · simpa only [bumpSome, bump_of_ne _ htu, Function.update_of_ne htu] using this

theorem SemInv.countUp (h : SemInv value s) (caller : Option α) :
    SemInv value { s with
      mem := { s.mem with resource := s.mem.resource + 1 }
      signalled := bumpSome s.signalled caller
      signals := s.signals + 1 } where
  ring := ⟨h.ring.head_lt, h.ring.tail_lt, h.ring.entries⟩
  count := by
    have := h.count
    push_cast
    omega
  nonneg hv := by
    have := h.nonneg hv
    simp only
    omega
  waiting := h.waiting
  nodup := h.nodup
  inLoop := h.inLoop
  called := h.called
  granted := h.granted

/-- Every step keeps the invariant. -/
theorem SemInv.step (h : SemInv value s) {e : SemEvent α} {s' : SemState α}
    (hst : SemStep s e s') : SemInv value s' := by
  cases hst with
  | pass ht hw =>
      rcases semWait_pass hw with ⟨hpos, rfl⟩
      exact h.pass ht hpos
  | block ht hw =>
      rcases semWait_block hw with ⟨-, rfl⟩
      exact h.block ht
  | leave ht hbl => exact h.leave ht hbl
  | @signal caller popped m hcaller hs =>
      rcases semSignal_cases hs with ⟨u, rfl, hne, -, hu, rfl⟩ | ⟨rfl, -, rfl⟩
      · exact h.handOver caller hne hu
      · have hall : (s.waiting.filter fun t => decide (none ≠ some t)) = s.waiting := by simp
        rw [hall]
        exact h.countUp caller

/-! What a step means to a user of the semaphore. -/

/-- Everything a call of `sem_wait` can do: be granted at once, or block. -/
theorem SemInv.wait_cases (h : SemInv value s) {s' : SemState α} (hst : SemStep s (.wait t) s') :
    s.mem.blocked t = false ∧ s'.signals = s.signals ∧
      (s'.inLoop = s.inLoop ∧ s'.mem.blocked = s.mem.blocked ∧ s'.grants = s.grants + 1 ∨
        s'.inLoop = Function.update s.inLoop t true ∧
          s'.mem.blocked = Function.update s.mem.blocked t true ∧ s'.grants = s.grants) := by
  cases hst with
  | pass ht hw =>
      rcases semWait_pass hw with ⟨-, rfl⟩
      exact ⟨h.blocked_of_not_inLoop ht, rfl, Or.inl ⟨rfl, rfl, rfl⟩⟩
  | block ht hw =>
      rcases semWait_block hw with ⟨-, rfl⟩
      exact ⟨h.blocked_of_not_inLoop ht, rfl, Or.inr ⟨rfl, rfl, rfl⟩⟩

/-- Everything `sem_signal` can do: grant a task that is blocked, or count up. -/
theorem SemInv.signal_cases (h : SemInv value s) {s' : SemState α} {caller : Option α}
    (hst : SemStep s (.signal caller) s') : s'.inLoop = s.inLoop ∧ s'.signals = s.signals + 1 ∧
      ((∃ u, s.mem.blocked u = true ∧ s'.mem.blocked = Function.update s.mem.blocked u false ∧
        s'.grants = s.grants + 1) ∨ s'.mem.blocked = s.mem.blocked ∧ s'.grants = s.grants) := by
  cases hst with
  | signal hcaller hs =>
      rcases semSignal_cases hs with ⟨u, rfl, hne, -, hu, rfl⟩ | ⟨rfl, -, rfl⟩
      · rcases h.ring.handOver hne with ⟨v, hv, hbl, -⟩
        obtain rfl : u = v := Option.some.inj (hu.symm.trans hv)
        exact ⟨rfl, rfl, Or.inl ⟨u, hbl, rfl, rfl⟩⟩
      · exact ⟨rfl, rfl, Or.inr ⟨rfl, rfl⟩⟩

end Step

theorem SemRun.inv {value : ℤ} {h : List (SemState α × SemEvent α)} {s : SemState α}
    (hr : SemRun value h s) : SemInv value s :=
  hr.invariant (fun _ he => he ▸ semInv_start value) fun _ _ _ hinv hst => hinv.step hst

end OsLab
