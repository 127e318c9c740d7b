import OsLab.Page.Run

/-! # Does `page_free` give the memory back?

`GivesMemoryBack` says what a caller expects of `page_free`: the request that
was just freed can be served again, and once every live block is freed all
trees are as `page_init` left them. `page_free` returns before it changes
anything, so this holds exactly in the states of `NothingToGiveBack`
(`givesMemoryBack_iff`).
-/

namespace OsLab

open Buddy Trace

/-- What `page_free` is for, in the state `s`. -/
def GivesMemoryBack (heap : Area) (mem : ℕ → ℕ) (s : PageState) : Prop :=
  (∀ b ∈ s.live, ∃ σ₁, pageFree b.addr s.sys = some σ₁ ∧
    ∃ q σ₂, pageAlloc b.size σ₁ = some (some q, σ₂)) ∧
  (s.live = [] → ∀ i < s.sys.realPageNum,
    (∀ j, 1 ≤ j → j < PAGE_NODE_NUM →
      s.sys.node (s.sys.pagePool i) j =
        (pageSystemStart heap mem).node ((pageSystemStart heap mem).pagePool i) j) ∧
    ∃ q, (allocSpaceFromPage (s.sys.pagePool i) P_16M s.sys).1 = some q)

/-- `page_alloc(size)` was called in the history `h`. -/
def Requested (h : List (PageState × PageCall)) (size : ℕ) : Prop :=
  ∃ s, (s, PageCall.alloc size) ∈ h

/-- There is nothing that `page_free` has to do: for each live block some unit has room for
another one of its size as it is, and if no block is live, then none was ever handed out, as
there are no units or every request was above 16 MiB. -/
def NothingToGiveBack (h : List (PageState × PageCall)) (s : PageState) : Prop :=
  (∀ b ∈ s.live, ∃ i < s.sys.realPageNum,
    transPageSize b.size ≤ s.sys.node (s.sys.pagePool i) 1) ∧
  (s.live = [] → s.sys.realPageNum = 0 ∨ ∀ size, Requested h size → 2 ^ 24 < size)

/-! ## Invariant of the runs -/

/-- No block was ever handed out, as far as one can tell from the requests. -/
def NoneServed (heap : Area) (h : List (PageState × PageCall)) : Prop :=
  heap.units = 0 ∨ ∀ size, Requested h size → 2 ^ 24 < size

theorem requested_alloc {h : List (PageState × PageCall)} {s : PageState} {size k : ℕ} :
    Requested ((s, .alloc size) :: h) k ↔ k = size ∨ Requested h k := by
  constructor
  · rintro ⟨s', hmem⟩
    rcases List.mem_cons.1 hmem with he | hmem
    · exact Or.inl (PageCall.alloc.inj (Prod.mk.inj he).2)
    · exact Or.inr ⟨s', hmem⟩
  · rintro (rfl | ⟨s', hmem⟩)
    · exact ⟨s, List.mem_cons_self⟩
    · exact ⟨s', List.mem_cons_of_mem _ hmem⟩

theorem requested_free {h : List (PageState × PageCall)} {s : PageState} {b : PageBlock} {k : ℕ} :
    Requested ((s, .free b) :: h) k ↔ Requested h k := by
  constructor
  · rintro ⟨s', hmem⟩
    rcases List.mem_cons.1 hmem with he | hmem
    · cases (Prod.mk.inj he).2
    · exact ⟨s', hmem⟩
  · rintro ⟨s', hmem⟩
    exact ⟨s', List.mem_cons_of_mem _ hmem⟩

theorem noneServed_alloc {heap : Area} {h : List (PageState × PageCall)} {s : PageState}
    {size : ℕ} : NoneServed heap ((s, .alloc size) :: h) ↔
      NoneServed heap h ∧ (heap.units = 0 ∨ 2 ^ 24 < size) := by
  unfold NoneServed
  simp only [requested_alloc, forall_eq_or_imp]
  rw [← or_and_left, and_comm]

theorem noneServed_free {heap : Area} {h : List (PageState × PageCall)} {s : PageState}
    {b : PageBlock} : NoneServed heap ((s, .free b) :: h) ↔ NoneServed heap h := by
  unfold NoneServed
  simp only [requested_free]

/-- Every run keeps the invariant, and its trees are free exactly if no request was served. -/
theorem PageRun.inv {heap : Area} {mem : ℕ → ℕ} {h : List (PageState × PageCall)} {s : PageState}
    (hr : PageRun heap mem h s) :
    ∃ T, PageInv heap T s ∧ (NoneServed heap h ↔ ∀ i < heap.units, T i = .free) := by
  induction hr with
  | start hs =>
      subst hs
      refine ⟨_, pageInv_start heap mem, fun _ _ _ => rfl, fun _ => Or.inr ?_⟩
      rintro size ⟨s, hmem⟩
      cases hmem
  | @snoc h s t e _ hst ih =>
      rcases ih with ⟨T, hinv, hfresh⟩
      cases e with
      | free b =>
          refine ⟨T, (hinv.free_cases hst).2.2, ?_⟩
          rw [noneServed_free, hfresh]
      | alloc size =>
          rw [noneServed_alloc, hfresh]
          rcases hinv.alloc_cases hst with ⟨rfl, -, hno⟩ | ⟨hsize, j, hj, -, o, t', ha, -, -, hinv'⟩
          · -- answered with `NULL`: were the trees free, only the size could be the reason
            refine ⟨T, hinv, And.left, fun hfree => ⟨hfree, ?_⟩⟩
            by_cases hbig : 2 ^ 24 < size
            · exact Or.inr hbig
            · refine Or.inl (Nat.eq_zero_of_not_pos fun hpos => ?_)
              have hlow := hno.resolve_left hbig 0 hpos
              rw [hfree 0 hpos] at hlow
              exact absurd hlow (Nat.not_lt.2 (transPageSize_bounds hbig).2)
          · -- served: the tree of unit `j` is not free any more
            refine ⟨_, hinv', fun ⟨_, hnone⟩ => ?_, fun hfree => ?_⟩
            · rcases hnone with h0 | hbig
              · omega
              · exact absurd hbig hsize
            · have hocc := hfree j hj
              rw [Function.update_self] at hocc
              subst hocc
              exact (BuddyTree.occupied_alloc (transPageSize_bounds hsize).1 ha).elim

/-! ## Exactly when the memory comes back -/

section Exact

variable {heap : Area} {mem : ℕ → ℕ} {T : ℕ → BuddyTree 12} {s : PageState}

/-- Freeing a live block makes no difference to the next request. -/
theorem PageInv.served_again_iff (hinv : PageInv heap T s) {b : PageBlock} (hb : b ∈ s.live) :
    (∃ σ₁, pageFree b.addr s.sys = some σ₁ ∧
      ∃ q σ₂, pageAlloc b.size σ₁ = some (some q, σ₂)) ↔
    ∃ i < s.sys.realPageNum, transPageSize b.size ≤ s.sys.node (s.sys.pagePool i) 1 := by
  have hfree : pageFree b.addr s.sys = some s.sys := pageFree_given hinv.rep (hinv.given b hb)
  simp only [hfree, Option.some.injEq, exists_eq_left', pageAlloc_isSome_iff hinv.rep,
    hinv.served b hb, not_false_eq_true, true_and, hinv.rep.layout.realPageNum]
  refine exists_congr fun i => and_congr_right fun hi => ?_
  rw [hinv.rep.root hi]

/-- The trees are as `page_init` left them exactly if they are free. -/
theorem PageInv.restored_iff (hinv : PageInv heap T s) :
    (∀ i < s.sys.realPageNum,
      (∀ j, 1 ≤ j → j < PAGE_NODE_NUM →
        s.sys.node (s.sys.pagePool i) j =
          (pageSystemStart heap mem).node ((pageSystemStart heap mem).pagePool i) j) ∧
      ∃ q, (allocSpaceFromPage (s.sys.pagePool i) P_16M s.sys).1 = some q) ↔
    ∀ i < heap.units, T i = .free := by
  rw [hinv.rep.layout.realPageNum]
  refine forall_congr' fun i => imp_congr_right fun hi => ?_
  rw [(layout_start heap mem).pagePool i hi, hinv.rep.layout.pagePool i hi]
  have hrep := hinv.rep.rep i hi
  constructor
  · rintro ⟨hnodes, -⟩
    have hroot := hnodes 1 (Nat.le_refl _) (by decide)
    rw [hrep.val, (rep_start heap mem hi).val] at hroot
    exact (BuddyTree.summary_eq_iff (by decide)).1 hroot
  · intro hfree
    rw [hfree] at hrep
    refine ⟨fun j hj hj' => ?_, ?_⟩
    · rw [node_start heap mem hi hj hj']
      exact (rep_free.1 hrep).val_of_under atHeight_root (under_root hj) hj'
    · have ha : (.free : BuddyTree 12).alloc P_4K P_16M = some (0, .used) := rfl
      obtain ⟨σ', hget, -⟩ := allocSpaceFromPage_spec hinv.rep.layout hi hrep (by decide) ha
      rw [hinv.rep.layout.pagePool i hi] at hget
      exact ⟨_, congrArg Prod.fst hget⟩

end Exact

/-- `page_free` gives the memory back exactly where there is nothing to give back. -/
theorem givesMemoryBack_iff {heap : Area} {mem : ℕ → ℕ} {h : List (PageState × PageCall)}
    {s : PageState} (hr : PageRun heap mem h s) :
    GivesMemoryBack heap mem s ↔ NothingToGiveBack h s := by
  rcases hr.inv with ⟨T, hinv, hfresh⟩
  unfold GivesMemoryBack NothingToGiveBack
  refine and_congr ?_ (imp_congr_right fun _ => ?_)
  · exact forall₂_congr fun b hb => hinv.served_again_iff hb
  · rw [hinv.restored_iff, ← hfresh, NoneServed, hinv.rep.layout.realPageNum]

/-- One page of one unit: there is room for another page, so nothing has to be given back. -/
theorem givesMemoryBack_firstPage :
    ∃ h s, PageRun oneUnit (fun _ => 0) h s ∧ s.live ≠ [] ∧
      GivesMemoryBack oneUnit (fun _ => 0) s := by
  rcases exists_run_firstPage with ⟨h, s, hr, -, hlive, hinv⟩
  refine ⟨h, s, hr, by simp [hlive], (givesMemoryBack_iff hr).2 ⟨fun b hb => ⟨0, ?_, ?_⟩, ?_⟩⟩
  · rw [hinv.rep.layout.realPageNum]
    decide
  · rw [hlive, List.mem_singleton] at hb
    subst hb
    rw [hinv.rep.root (by decide), Function.update_self]
    decide
  · simp [hlive]

/-- One unit, handed out as a whole: after the block is freed the next request fails. -/
theorem not_givesMemoryBack :
    ¬ ∀ (heap : Area) (mem : ℕ → ℕ) (h : List (PageState × PageCall)) (s : PageState),
      PageRun heap mem h s → GivesMemoryBack heap mem s := by
  intro hall
  have hclass : transPageSize (2 ^ 24) = P_16M := by decide
  have ha : (.free : BuddyTree 12).alloc P_4K (transPageSize (2 ^ 24)) = some (0, .used) := by
    rw [hclass]
    rfl
  obtain ⟨s, hst, hlive, hinv⟩ :=
    (pageInv_start oneUnit fun _ => 0).alloc_oneUnit (2 ^ 24) (by decide) ha (by decide)
  have hrun : PageRun oneUnit (fun _ => 0) _ s := Run.snoc (Run.start rfl) hst
  have hb : (⟨oneUnit.unitAddr 0 + 0, 2 ^ 24⟩ : PageBlock) ∈ s.live := by
    rw [hlive]
    exact List.mem_cons_self
  rcases (hinv.served_again_iff hb).1 ((hall _ _ _ _ hrun).1 _ hb) with ⟨i, hi, hroot⟩
  rw [hinv.rep.layout.realPageNum, units_oneUnit] at hi
  obtain rfl : i = 0 := by omega
  rw [hinv.rep.root (by decide), Function.update_self] at hroot
  exact absurd hroot (by decide)

end OsLab
