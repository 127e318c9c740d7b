import OsLab.Lib.Tally
import OsLab.Sem.Fifo

/-! # Users of a semaphore

A task that calls `sem_wait` is either blocked, or it has its grant and is on the way
past the call. `Clients W done` counts the second kind: of the tasks in `W`, which have
called and not gone on, those with a grant, together with the `done` times a task went
on, make up the grants of the semaphore. A system that uses semaphores keeps one such
count for each, and compares it with its own count of the signals.
-/

namespace OsLab

open Tally

variable {α : Type*} [DecidableEq α]

/-- The tasks in `W` are between their call of `sem_wait` and the first step after it; a task has
gone on from there `done` times. -/
structure Clients (value : ℤ) (s : SemState α) (W : α → Prop) (done : ℕ) : Prop where
  sem : SemInv value s
  inLoop : ∀ t, s.inLoop t = true → W t
  grants : ∃ n, Counts (fun t => W t ∧ s.mem.blocked t = false) n ∧ done + n = s.grants

omit [DecidableEq α] in
theorem clients_start (value : ℤ) :
    Clients value (semStart value : SemState α) (fun _ => False) 0 where
  sem := semInv_start value
  inLoop := nofun
  grants := ⟨0, counts_zero fun _ h => h.1, rfl⟩

section Steps

variable {value : ℤ} {s s' : SemState α} {W W' : α → Prop} {done : ℕ} {t : α}

omit [DecidableEq α] in
theorem Clients.congr (h : Clients value s W done) (hW : ∀ u, W' u ↔ W u) :
    Clients value s W' done := by
  rcases h.grants with ⟨n, hn, hgrants⟩
  refine ⟨h.sem, fun u hu => (hW u).2 (h.inLoop u hu), n, hn.congr fun u => ?_, hgrants⟩
  rw [hW]

omit [DecidableEq α] in
/-- A task that is to go on has its grant. -/
theorem Clients.lt_grants (h : Clients value s W done) (ht : W t) (hout : s.inLoop t = false) :
    done < s.grants := by
  rcases h.grants with ⟨n, hn, hgrants⟩
  have hpos := hn.pos ⟨ht, h.sem.blocked_of_not_inLoop hout⟩
  omega

omit [DecidableEq α] in
/-- Nobody goes on more often than the semaphore has resources for. -/
theorem Clients.grants_le (h : Clients value s W done) (hv : 0 ≤ value) :
    (done : ℤ) ≤ s.grants ∧ (s.grants : ℤ) ≤ value + s.signals := by
  rcases h.grants with ⟨n, -, hgrants⟩
  have hcount := h.sem.count
  have hnonneg := h.sem.nonneg hv
  omega

omit [DecidableEq α] in
/-- While a task is blocked and the ring has lost nobody, everything is granted. -/
theorem Clients.grants_eq (h : Clients value s W done) (hv : 0 ≤ value) (hf : Fifo s)
    (hbl : s.mem.blocked t = true) : (s.grants : ℤ) = value + s.signals := by
  have hcount := h.sem.count
  have hnonneg := h.sem.nonneg hv
  have hzero : ¬ 0 < s.mem.resource := by
    intro hpos
    have hmem := (h.sem.waiting t).1 hbl
    rw [hf.available hpos] at hmem
    cases hmem
  omega

/-- A call of `sem_wait`. -/
theorem Clients.wait (h : Clients value s W done) (ht : ¬ W t) (hst : SemStep s (.wait t) s')
    (hW : ∀ u, W' u ↔ u = t ∨ W u) : Clients value s' W' done ∧ s'.signals = s.signals := by
  rcases h.sem.wait_cases hst with ⟨hbl, hsig, hcases⟩
  rcases h.grants with ⟨n, hn, hgrants⟩
  refine ⟨⟨h.sem.step hst, ?_, ?_⟩, hsig⟩
  · intro u hu
    rw [hW]
    by_cases hut : u = t
    · exact Or.inl hut
    · right
      apply h.inLoop
      rcases hcases with ⟨hin, -⟩ | ⟨hin, -⟩
      · rwa [hin] at hu
      · rwa [hin, Function.update_of_ne hut] at hu
  · rcases hcases with ⟨-, hblocked, hgr⟩ | ⟨-, hblocked, hgr⟩
    · -- granted at once
      refine ⟨n + 1, hn.add (a := t) (fun hc => ht hc.1) fun u => ?_, by omega⟩
      by_cases hut : u = t
      · subst hut
        simp [hW, hblocked, hbl]
      · simp [hW, hblocked, hut]
    · refine ⟨n, hn.congr fun u => ?_, by omega⟩
      by_cases hut : u = t
      · subst hut
        simp [hblocked, ht]
      · simp [hW, hblocked, hut]

/-- A task leaves the loop of `sem_wait`. -/
theorem Clients.leave (h : Clients value s W done) (hst : SemStep s (.leave t) s') :
    Clients value s' W done ∧ s'.signals = s.signals := by
  have hsem := h.sem.step hst
  cases hst with
  | leave hin hbl =>
      refine ⟨⟨hsem, fun u hu => ?_, h.grants⟩, rfl⟩
      by_cases hut : u = t
      · simp [hut] at hu
      · simp only [Function.update_of_ne hut] at hu
        exact h.inLoop u hu

/-- A call of `sem_signal`. -/
theorem Clients.signal (h : Clients value s W done) {caller : Option α}
    (hst : SemStep s (.signal caller) s') :
    Clients value s' W done ∧ s'.signals = s.signals + 1 := by
  rcases h.sem.signal_cases hst with ⟨hin, hsig, hcases⟩
  rcases h.grants with ⟨n, hn, hgrants⟩
  refine ⟨⟨h.sem.step hst, fun u hu => h.inLoop u (by rwa [hin] at hu), ?_⟩, hsig⟩
  rcases hcases with ⟨u, hbl, hblocked, hgr⟩ | ⟨hblocked, hgr⟩
  · -- the task that is granted is one in the loop
    have hu := h.inLoop u (h.sem.inLoop u hbl)
    refine ⟨n + 1, hn.add (a := u) ?_ fun v => ?_, by omega⟩
    · rintro ⟨-, hno⟩
      cases hbl.symm.trans hno
    · by_cases hvu : v = u
      · simp [hvu, hblocked, hu]
      · simp [hvu, hblocked]
  · exact ⟨n, hn.congr fun v => by rw [hblocked], by omega⟩

/-- A task that has left the loop goes on. -/
theorem Clients.goOn (h : Clients value s W done) (ht : W t) (hout : s.inLoop t = false)
    (hW : ∀ u, W' u ↔ u ≠ t ∧ W u) : Clients value s W' (done + 1) := by
  rcases h.grants with ⟨n, hn, hgrants⟩
  refine ⟨h.sem, fun u hu => ?_, ?_⟩
  · rw [hW]
    refine ⟨?_, h.inLoop u hu⟩
    rintro rfl
    cases hu.symm.trans hout
  · rcases hn.remove (a := t) ⟨ht, h.sem.blocked_of_not_inLoop hout⟩
      (Q := fun u => W' u ∧ s.mem.blocked u = false) fun u => by rw [hW, and_assoc] with
      ⟨k, hk, hkn⟩
    exact ⟨k, hk, by omega⟩

end Steps

/-! ## A semaphore as a lock -/

/-- The tasks in `W` want the lock, those in `H` hold it, and each of these is to signal once. -/
def Locked (s : SemState α) (W H : α → Prop) : Prop :=
  ∃ done n, Clients 1 s W done ∧ Counts H n ∧ s.signals + n = done

omit [DecidableEq α] in
theorem locked_start : Locked (semStart 1 : SemState α) (fun _ => False) (fun _ => False) :=
  ⟨0, 0, clients_start 1, counts_zero fun _ h => h, rfl⟩

section Locked

variable {s s' : SemState α} {W W' H H' : α → Prop} {t : α}

omit [DecidableEq α] in
theorem Locked.congr (h : Locked s W H) (hW : ∀ u, W' u ↔ W u) (hH : ∀ u, H' u ↔ H u) :
    Locked s W' H' := by
  rcases h with ⟨done, n, hc, hn, hsig⟩
  exact ⟨done, n, hc.congr hW, hn.congr hH, hsig⟩

omit [DecidableEq α] in
/-- Mutual exclusion. -/
theorem Locked.unique (h : Locked s W H) {u : α} (ht : H t) (hu : H u) : t = u := by
  rcases h with ⟨done, n, hc, hn, hsig⟩
  have hle := hc.grants_le (by decide)
  exact hn.unique (by omega) ht hu

omit [DecidableEq α] in
/-- While a task sleeps, the lock is held, or granted to a task that is awake. -/
theorem Locked.exists_awake (h : Locked s W H) (hf : Fifo s) (hbl : s.mem.blocked t = true) :
    ∃ u, (W u ∧ s.mem.blocked u = false) ∨ H u := by
  rcases h with ⟨done, n, hc, hn, hsig⟩
  have hall := hc.grants_eq (by decide) hf hbl
  rcases hc.grants with ⟨k, hk, hgrants⟩
  have hone : 0 < k ∨ 0 < n := by omega
  rcases hone with hpos | hpos
  · rcases hk.exists_of_pos hpos with ⟨u, hu⟩
    exact ⟨u, Or.inl hu⟩
  · rcases hn.exists_of_pos hpos with ⟨u, hu⟩
    exact ⟨u, Or.inr hu⟩

theorem Locked.wait (h : Locked s W H) (ht : ¬ W t) (hst : SemStep s (.wait t) s')
    (hW : ∀ u, W' u ↔ u = t ∨ W u) (hH : ∀ u, H' u ↔ H u) : Locked s' W' H' := by
  rcases h with ⟨done, n, hc, hn, hsig⟩
  rcases hc.wait ht hst hW with ⟨hc', hsig'⟩
  exact ⟨done, n, hc', hn.congr hH, by rw [hsig', hsig]⟩

theorem Locked.leave (h : Locked s W H) (hst : SemStep s (.leave t) s') : Locked s' W H := by
  rcases h with ⟨done, n, hc, hn, hsig⟩
  rcases hc.leave hst with ⟨hc', hsig'⟩
  exact ⟨done, n, hc', hn, by rw [hsig', hsig]⟩

/-- A task that has left the loop holds the lock. -/
theorem Locked.enter (h : Locked s W H) (ht : W t) (hno : ¬ H t) (hout : s.inLoop t = false)
    (hW : ∀ u, W' u ↔ u ≠ t ∧ W u) (hH : ∀ u, H' u ↔ u = t ∨ H u) : Locked s W' H' := by
  rcases h with ⟨done, n, hc, hn, hsig⟩
  exact ⟨done + 1, n + 1, hc.goOn ht hout hW, hn.add hno hH, by rw [← Nat.add_assoc, hsig]⟩

theorem Locked.signal (h : Locked s W H) (ht : H t) (hst : SemStep s (.signal (some t)) s')
    (hW : ∀ u, W' u ↔ W u) (hH : ∀ u, H' u ↔ u ≠ t ∧ H u) : Locked s' W' H' := by
  rcases h with ⟨done, n, hc, hn, hsig⟩
  rcases hc.signal hst with ⟨hc', hsig'⟩
  rcases hn.remove ht hH with ⟨k, hk, hkn⟩
  exact ⟨done, k, hc'.congr hW, hk, by rw [hsig']; omega⟩

end Locked

end OsLab
