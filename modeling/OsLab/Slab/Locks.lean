import OsLab.Slab.Run

/-! # Locks and failing requests

Every exit of `slab_alloc`, `slab_free`, `recover_slab` and `page_alloc` leaves the
locks free, and a `kalloc` that answers `NULL` leaves the whole state as it was
(`locksSound_of_run`). The lock of a slab that was recovered stays taken, but that
slab is on no list any more.
-/

namespace OsLab

open Buddy PtrList Trace

/-- No allocator lock is held: the locks of the units, and those of the slabs on a list. -/
structure NoLocks (σ : SlabSys) : Prop where
  pages : ∀ i, σ.page.pageLocks i = 0
  slabs : ∀ cpu k S, Visits σ.append (σ.slabsOfCpu cpu k) S → σ.locked S = 0

/-- There is nothing to serve a request for `size` bytes on `cpu` from. -/
structure Exhausted (cpu size : ℕ) (σ : SlabSys) : Prop where
  /-- no free block of the class on a slab of this CPU -/
  slabs : transSlabSize size ≠ S_REFUSE → ∀ S,
    Visits σ.append (σ.slabsOfCpu cpu (transSlabSize size - SLAB_SIZE_OFFSET)) S →
      σ.freeBlockNum S = 0 ∧ σ.freeList S = none
  /-- and no page for a new slab -/
  newSlab : transSlabSize size ≠ S_REFUSE →
    ∀ i < σ.page.realPageNum, σ.page.node (σ.page.pagePool i) 1 < P_4K
  /-- no unit whose root reaches the class -/
  pages : transSlabSize size = S_REFUSE →
    ∀ i < σ.page.realPageNum, σ.page.node (σ.page.pagePool i) 1 < transPageSize size

/-- What callers of `kalloc` and `kfree` rely on in state `s`. -/
structure LocksSound (s : HeapState) : Prop where
  noLocks : NoLocks s.sys
  allocReturns : ∀ cpu size, ∃ fuel r, kalloc fuel cpu size s.sys = some r
  freeReturns : ∀ b ∈ s.live, ∃ fuel σ', kfree fuel b.addr s.sys = some σ'
  alloc : ∀ fuel cpu size answer σ', kalloc fuel cpu size s.sys = some (answer, σ') → NoLocks σ'
  free : ∀ fuel, ∀ b ∈ s.live, ∀ σ', kfree fuel b.addr s.sys = some σ' → NoLocks σ'
  null : ∀ fuel cpu size σ', kalloc fuel cpu size s.sys = some (none, σ') →
    σ' = s.sys ∧ Exhausted cpu size s.sys

section Lists

variable {heap : Area} {T : ℕ → BuddyTree 12} {L : ℕ → ℕ → List ℕ} {F : ℕ → List ℕ}
  {σ : SlabSys} {s : HeapState} {cpu k size fuel : ℕ}

theorem ListsInv.mem_of_visits (h : ListsInv heap T L F σ) {S : ℕ}
    (hv : Visits σ.append (σ.slabsOfCpu cpu k) S) : S ∈ L cpu k :=
  (h.chain cpu k).mem_of_visits hv

theorem ListsInv.noLocks (h : ListsInv heap T L F σ) : NoLocks σ where
  pages := h.rep.locks
  slabs cpu k S hv := (h.slab cpu k S (h.mem_of_visits hv)).locked

/-- The roots that `page_alloc` looks at. -/
theorem ListsInv.roots_lt (h : ListsInv heap T L F σ) {c : ℕ}
    (hno : ∀ i < heap.units, (T i).summary P_4K < c) :
    ∀ i < σ.page.realPageNum, σ.page.node (σ.page.pagePool i) 1 < c := by
  intro i hi
  rw [h.rep.layout.realPageNum] at hi
  rw [h.rep.root hi]
  exact hno i hi

/-- A slab without free blocks. -/
theorem ListsInv.usedUp (h : ListsInv heap T L F σ) {S : ℕ} (hS : S ∈ L cpu k) (hF : F S = []) :
    σ.freeBlockNum S = 0 ∧ σ.freeList S = none := by
  have hok := h.slab cpu k S hS
  rw [hF] at hok
  exact ⟨hok.freeBlockNum, chain_nil.1 hok.freeList⟩

/-- Why `page_alloc` answers `NULL`; a class that is refused is more than any root. -/
theorem ListsInv.page_null (h : ListsInv heap T L F σ) {p : PageSys}
    (hnull : pageAlloc size σ.page = some (none, p)) :
    p = σ.page ∧ ∀ i < heap.units, (T i).summary P_4K < transPageSize size := by
  rcases pageAlloc_grants h.rep size with ⟨hno, hnone⟩ | ⟨-, q, T', σ', hsome, -⟩
  · rcases Prod.mk.inj (Option.some.inj (hnull.symm.trans hnone)) with ⟨-, rfl⟩
    refine ⟨rfl, fun i hi => ?_⟩
    -- a class that is refused is above every root
    rcases hno with hbig | hno
    · have hle : (T i).summary P_4K ≤ 24 := BuddyTree.summary_le (T i)
      rw [(transPageSize_eq_refuse size).2 hbig]
      exact Nat.lt_succ_of_le hle
    · exact hno i hi
  · cases hnull.symm.trans hsome

/-- A request that fails changes nothing, and there was nothing to serve it from. -/
theorem ListsInv.kalloc_null (h : ListsInv heap T L F σ) {σ' : SlabSys}
    (hnull : kalloc fuel cpu size σ = some (none, σ')) : σ' = σ ∧ Exhausted cpu size σ := by
  unfold kalloc at hnull
  by_cases hpage : transSlabSize size = S_REFUSE
  · rw [slabAlloc_of_refuse hpage] at hnull
    rcases Option.map_eq_some_iff.1 hnull with ⟨⟨answer, p⟩, hp, he⟩
    rcases Prod.mk.inj he with ⟨rfl, rfl⟩
    rcases h.page_null hp with ⟨rfl, hno⟩
    exact ⟨rfl, fun hne => absurd hpage hne, fun hne => absurd hpage hne, fun _ => h.roots_lt hno⟩
  · rcases transSlabSize_class hpage with ⟨k, hclass, hlt⟩
    rcases slabAlloc_spec h hclass hlt fuel cpu with ⟨hnone, -⟩ | ⟨⟨hfull, hno⟩, heq⟩ |
      ⟨Q, a, rest, σ₁, -, -, heq, -⟩ | ⟨-, S, T', a, rest, σ₁, -, -, heq, -⟩
    · cases hnull.symm.trans hnone
    · rcases Prod.mk.inj (Option.some.inj (hnull.symm.trans heq)) with ⟨-, rfl⟩
      refine ⟨rfl, fun _ S hv => ?_, fun _ => h.roots_lt hno, fun he => absurd he hpage⟩
      rw [hclass, show k + S_8B - SLAB_SIZE_OFFSET = k from Nat.add_sub_cancel k 3] at hv
      have hS := h.mem_of_visits hv
      exact h.usedUp hS (hfull S hS)
    · cases hnull.symm.trans heq
    · cases hnull.symm.trans heq

theorem HeapInv.locksSound (h : HeapInv heap T L F s) : LocksSound s where
  noLocks := h.lists.noLocks
  allocReturns := h.kalloc_returns
  freeReturns _ hb := h.kfree_returns hb
  alloc fuel cpu size answer σ' heq := by
    rcases h.alloc heq with ⟨T', L', F', h'⟩
    exact h'.lists.noLocks
  free fuel b hb σ' heq := by
    rcases h.free hb heq with ⟨L', F', h'⟩
    exact h'.lists.noLocks
  null _ _ _ _ hnull := h.lists.kalloc_null hnull

end Lists

/-- In every reachable state of the heap no lock is held, every call comes back with all locks
free, and a request that fails changes nothing. -/
theorem locksSound_of_run {heap : Area} {n : ℕ} {mem : ℕ → ℕ} {h : List (HeapState × HeapEvent)}
    {s : HeapState} (hr : HeapRun heap n mem h s) : LocksSound s := by
  rcases hr.inv with ⟨T, L, F, hinv⟩
  exact hinv.locksSound

/-- CPU 0 has requested 5 bytes three times, and CPU 1 has freed the first block. -/
theorem locksSound_twoBlocks : ∃ h s p q r, HeapRun oneUnit 2 (fun _ => 0) h s ∧
    (∃ t, (t, .free 1 ⟨p, 5⟩) ∈ h) ∧ s.live = [⟨r, 5⟩, ⟨q, 5⟩] ∧ LocksSound s := by
  rcases exists_run_twoBlocks with ⟨h, s, p, q, r, hr, hfree, hlive⟩
  exact ⟨h, s, p, q, r, hr, hfree, hlive, locksSound_of_run hr⟩

end OsLab
