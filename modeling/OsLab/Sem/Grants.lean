import OsLab.Sem.Inv

/-! # A semaphore never grants more than it was given

The counters of `SemState` against `resource` (`grantsSound_of_run`). A grant is
a call of `sem_wait` that took the fast path or a waiter that `sem_signal` popped.
For mutual exclusion the holders of the semaphore are collected in a list: it is
as long as the grants exceed the signals.
-/

namespace OsLab

open Trace

variable {α : Type*} [DecidableEq α]

/-- Task `t` has returned from more calls of `sem_wait` than it has signalled. -/
def SemState.Between (s : SemState α) (t : α) : Prop := s.signalled t < s.left t

/-- Only tasks signal, and only after a wait of their own returned. -/
def SignalsOwn (h : List (SemState α × SemEvent α)) : Prop :=
  AllSteps (fun s e => ∀ caller, e = SemEvent.signal caller → ∃ t, caller = some t ∧ s.Between t) h

/-- What users of the semaphore rely on, at the end of the run with history `h`. -/
structure GrantsSound (value : ℤ) (h : List (SemState α × SemEvent α)) (s : SemState α) :
    Prop where
  count : s.mem.resource = value + s.signals - s.grants
  ownGrant : ∀ t, s.left t ≤ s.granted t
  notMore : ∀ t, s.granted t ≤ s.called t
  nonneg : 0 ≤ value → 0 ≤ s.mem.resource
  mutex : value = 1 → SignalsOwn h → ∀ t u, s.Between t → s.Between u → t = u

/-! ## The holders -/

/-- `L` lists each task as often as its grants exceed its signals. -/
structure Holders (s : SemState α) (L : List α) : Prop where
  count : ∀ t, L.count t + s.signalled t = s.granted t
  length : (L.length : ℤ) = s.grants - s.signals

/-- A grant adds a holder. -/
theorem Holders.grant {s s' : SemState α} {L : List α} (hL : Holders s L) {u : α}
    (hg : s'.granted = bump s.granted u) (hs : s'.signalled = s.signalled)
    (hgs : s'.grants = s.grants + 1) (hss : s'.signals = s.signals) : Holders s' (u :: L) := by
  refine ⟨?_, ?_⟩
  · intro t
    have := hL.count t
    rw [hg, hs]
    by_cases htu : t = u
    · subst htu
      rw [bump_self, List.count_cons_self]
      omega
    · rw [bump_of_ne _ htu, List.count_cons_of_ne (Ne.symm htu)]
      exact this
  · have := hL.length
    rw [hgs, hss, List.length_cons]
    push_cast
    omega

/-- A signal of a holder removes it. -/
theorem Holders.signal {s s' : SemState α} {L : List α} (hL : Holders s L) {u : α}
    (hu : s.signalled u < s.granted u) (hg : s'.granted = s.granted)
    (hs : s'.signalled = bump s.signalled u) (hgs : s'.grants = s.grants)
    (hss : s'.signals = s.signals + 1) : Holders s' (L.erase u) := by
  have hmem : u ∈ L := by
    have := hL.count u
    exact List.count_pos_iff.1 (by omega)
  refine ⟨?_, ?_⟩
  · intro t
    have := hL.count t
    rw [hg, hs]
    by_cases htu : t = u
    · subst htu
      rw [bump_self, List.count_erase_self]
      omega
    · rw [bump_of_ne _ htu, List.count_erase_of_ne htu]
      exact this
  · have := hL.length
    have hpos := List.length_pos_of_mem hmem
    rw [hgs, hss, List.length_erase_of_mem hmem]
    push_cast [Nat.cast_sub hpos]
    omega

/-- In a disciplined run there are always such holders. -/
theorem SemRun.holders {value : ℤ} {h : List (SemState α × SemEvent α)} {s : SemState α}
    (hr : SemRun value h s) (hown : SignalsOwn h) : ∃ L, Holders s L := by
  induction hr with
  | start hs =>
      subst hs
      exact ⟨[], by simp [semStart], by simp [semStart]⟩
  | @snoc h s s' e hr hst ih =>
      rcases allSteps_cons.1 hown with ⟨hcaller, hown⟩
      rcases ih hown with ⟨L, hL⟩
      cases hst with
      | pass ht hw => exact ⟨_, hL.grant rfl rfl rfl rfl⟩
      | block ht hw => exact ⟨L, hL.count, hL.length⟩
      | leave ht hbl => exact ⟨L, hL.count, hL.length⟩
      | @signal caller popped m _ hs =>
          rcases hcaller caller rfl with ⟨t, rfl, hbetween⟩
          -- the caller gives its grant back, then the popped task gets one
          have hgr : s.signalled t < s.granted t := by
            have := (SemRun.inv hr).granted t
            unfold SemState.Between at hbetween
            omega
          let s₁ : SemState α :=
            { s with signalled := bump s.signalled t, signals := s.signals + 1 }
          have hL₁ : Holders s₁ (L.erase t) := hL.signal hgr rfl rfl rfl rfl
          cases popped with
          | none => exact ⟨_, hL₁.count, hL₁.length⟩
          | some u => exact ⟨_, hL₁.grant rfl rfl rfl rfl⟩

omit [DecidableEq α] in
/-- A list of at most one holder. -/
theorem eq_of_mem_of_length_le_one {L : List α} (hL : L.length ≤ 1) {t u : α} (ht : t ∈ L)
    (hu : u ∈ L) : t = u := by
  match L, hL with
  | [], _ => cases ht
  | [a], _ => rw [List.mem_singleton.1 ht, List.mem_singleton.1 hu]

/-- No run of a semaphore grants more than it was given. -/
theorem grantsSound_of_run {value : ℤ} {h : List (SemState α × SemEvent α)} {s : SemState α}
    (hr : SemRun value h s) : GrantsSound value h s := by
  have hinv := hr.inv
  refine ⟨hinv.count, ?_, ?_, hinv.nonneg, ?_⟩
  · intro t
    have := hinv.granted t
    omega
  · intro t
    have h1 := hinv.granted t
    have h2 := hinv.called t
    cases hin : s.inLoop t <;> cases hbl : s.mem.blocked t <;> simp [hin, hbl] at h1 h2 <;> omega
  · intro hv hown t u ht hu
    rcases hr.holders hown with ⟨L, hL⟩
    have hmem : ∀ t, s.Between t → t ∈ L := by
      intro t ht
      have h1 := hL.count t
      have h2 := hinv.granted t
      unfold SemState.Between at ht
      exact List.count_pos_iff.1 (by omega)
    have hlen : L.length ≤ 1 := by
      have h1 := hL.length
      have h2 := hinv.count
      have h3 := hinv.nonneg (by omega)
      omega
    exact eq_of_mem_of_length_le_one hlen (hmem t ht) (hmem u hu)

/-- Two tasks and a mutex: the second waits until the first hands over. -/
theorem grantsSound_two_tasks : ∃ h s, SemRun (α := Bool) 1 h s ∧ SignalsOwn h ∧
    s.Between true ∧ GrantsSound 1 h s := by
  have hr : SemRun (α := Bool) 1 _ _ :=
    Run.snoc (Run.snoc (Run.snoc (Run.snoc (Run.start rfl)
      (.pass (t := false) rfl rfl)) (.block (t := true) rfl rfl))
      (show SemStep _ (.signal (some false)) _ from .signal (by decide) rfl))
      (.leave (t := true) rfl rfl)
  refine ⟨_, _, hr, ?_, ?_, grantsSound_of_run hr⟩
  · refine allSteps_cons.2 ⟨nofun, allSteps_cons.2 ⟨?_, allSteps_cons.2 ⟨nofun,
      allSteps_cons.2 ⟨nofun, allSteps_nil⟩⟩⟩⟩
    intro caller hc
    refine ⟨false, (SemEvent.signal.inj hc).symm, ?_⟩
    unfold SemState.Between
    decide
  · unfold SemState.Between
    decide

end OsLab
