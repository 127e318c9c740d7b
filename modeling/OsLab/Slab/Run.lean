import OsLab.Page.Run
import OsLab.Slab.Ops
import OsLab.Slab.Live
import OsLab.Lib.Run

/-! # Runs of the heap

Any number of CPUs call `kalloc` and `kfree`, a call being one step, and the
holder of a live block may write into it at any time. `HeapInv` ties the memory
(`ListsInv`) to the account of the live blocks (`LiveInv`); it holds in every
state of every run (`HeapRun.inv`).
-/

namespace OsLab

open Buddy PtrList Trace

/-- The heap and the blocks that `kalloc` returned and that were not freed since. -/
structure HeapState where
  sys : SlabSys
  live : List HeapBlock

inductive HeapEvent
  | alloc (cpu size : ℕ)
  | free (cpu : ℕ) (b : HeapBlock)
  | write (b : HeapBlock) (a v : ℕ)

/-- The answer of `kalloc(size)` as a list of new live blocks. -/
def newHeapBlocks (size : ℕ) (answer : Option ℕ) : List HeapBlock :=
  answer.toList.map fun p => ⟨p, size⟩

/-- The steps on `n` CPUs. -/
inductive HeapStep (n : ℕ) : HeapState → HeapEvent → HeapState → Prop
  | alloc {s : HeapState} {fuel cpu size : ℕ} {answer : Option ℕ} {σ' : SlabSys} :
      cpu < n → kalloc fuel cpu size s.sys = some (answer, σ') →
      HeapStep n s (.alloc cpu size) ⟨σ', newHeapBlocks size answer ++ s.live⟩
  | free {s : HeapState} {fuel cpu : ℕ} {b : HeapBlock} {σ' : SlabSys} :
      cpu < n → b ∈ s.live → kfree fuel b.addr s.sys = some σ' →
      HeapStep n s (.free cpu b) ⟨σ', s.live.erase b⟩
  | write {s : HeapState} {b : HeapBlock} {a v : ℕ} :
      b ∈ s.live → b.addr ≤ a → a < b.addr + 2 ^ b.cls →
      HeapStep n s (.write b a v) { s with sys := s.sys.setMem a v }

/-- Before `pmm_init`: `slabs_of_cpu` is all `NULL`. -/
def SlabSys.boot (mem : ℕ → ℕ) : SlabSys := ⟨PageSys.boot mem, fun _ _ => none⟩

/-- The states `pmm_init` leaves on `n` CPUs. -/
def HeapStart (heap : Area) (n : ℕ) (mem : ℕ → ℕ) (s : HeapState) : Prop :=
  pmmInit heap.start heap.stop n (SlabSys.boot mem) = some s.sys ∧ s.live = []

/-- Runs from there. -/
def HeapRun (heap : Area) (n : ℕ) (mem : ℕ → ℕ) :
    List (HeapState × HeapEvent) → HeapState → Prop :=
  Run (HeapStart heap n mem) (HeapStep n)

/-! ## The invariant -/

/-- The memory stands for `T`, `L` and `F`, and these account for the live blocks. -/
structure HeapInv (heap : Area) (T : ℕ → BuddyTree 12) (L : ℕ → ℕ → List ℕ) (F : ℕ → List ℕ)
    (s : HeapState) : Prop where
  lists : ListsInv heap T L F s.sys
  account : LiveInv heap T L F s.live

section Blocks

variable {heap : Area} {T : ℕ → BuddyTree 12} {L : ℕ → ℕ → List ℕ} {F : ℕ → List ℕ}
  {s s' : HeapState} {b c : HeapBlock} {n cpu k S : ℕ}

/-- A block that is not from `page_alloc` is a block of its slab. -/
theorem HeapInv.slab_of_live (h : HeapInv heap T L F s) (hb : b ∈ s.live) (hp : ¬ b.FromPage) :
    ∃ cpu k, ∃ S ∈ L cpu k, b.cls = k + S_8B ∧ b.addr ∈ slabBlocks S (k + S_8B) ∧
      S + 64 ≤ b.addr ∧ b.addr + 2 ^ b.cls ≤ S + 2 ^ 12 := by
  rcases h.account.owned b hb hp with ⟨c, j, Q, hQ, hsize, h1, h2⟩
  have hcls : b.cls = j + S_8B := (if_neg hp).trans hsize
  have hmem := h.account.mem_slabBlocks_of_live hQ (mem_liveIn.2 ⟨⟨b, hb, rfl⟩, h1, h2⟩)
  have hbounds := slabBlocks_bounds (Nat.le_add_left _ _) (h.lists.class_lt c j Q hQ) hmem
  exact ⟨c, j, Q, hQ, hcls, hmem, hbounds.1, hcls ▸ hbounds.2⟩

theorem HeapInv.page_of_live (h : HeapInv heap T L F s) (hb : b ∈ s.live) (hp : b.FromPage) :
    Given heap T ⟨b.addr, b.cls⟩ := (h.account.pages b hb hp).1

/-- Blocks from `page_alloc` do not touch the pages of the slabs. -/
theorem HeapInv.apart_slab (h : HeapInv heap T L F s) (hb : b ∈ s.live) (hp : b.FromPage)
    (hS : S ∈ L cpu k) : Apart b.addr (2 ^ b.cls) S (2 ^ 12) := by
  have hne : (⟨b.addr, b.cls⟩ : Block) ≠ ⟨S, 12⟩ := by
    intro he
    have haddr : b.addr = S := congrArg Block.addr he
    exact (h.account.pages b hb hp).2.2 cpu k (haddr ▸ hS)
  exact (h.page_of_live hb hp).apart (h.lists.given cpu k S hS) hne

/-- Two live blocks at different addresses do not overlap. -/
theorem HeapInv.apart (h : HeapInv heap T L F s) (hb : b ∈ s.live) (hc : c ∈ s.live)
    (hne : b.addr ≠ c.addr) : Apart b.addr (2 ^ b.cls) c.addr (2 ^ c.cls) := by
  by_cases hbp : b.FromPage
  · by_cases hcp : c.FromPage
    · exact (h.page_of_live hb hbp).apart (h.page_of_live hc hcp)
        fun he => hne (congrArg Block.addr he)
    · rcases h.slab_of_live hc hcp with ⟨d, j, Q, hQ, -, -, h1, h2⟩
      have := h.apart_slab hb hbp hQ
      unfold Apart at this ⊢
      omega
  · rcases h.slab_of_live hb hbp with ⟨d, j, Q, hQ, hcls, hmem, h1, h2⟩
    by_cases hcp : c.FromPage
    · have := h.apart_slab hc hcp hQ
      unfold Apart at this ⊢
      omega
    · rcases h.slab_of_live hc hcp with ⟨d', j', Q', hQ', hcls', hmem', h1', h2'⟩
      by_cases hQQ : Q = Q'
      · subst hQQ
        rcases h.lists.unique hQ hQ' with ⟨rfl, rfl⟩
        rw [hcls, hcls']
        exact apart_of_mem_slabBlocks hmem hmem' hne
      · have := apart_pages (h.lists.dvd hQ) (h.lists.dvd hQ') hQQ
        unfold Apart
        omega

/-- No live block reaches into the header of a slab. -/
theorem HeapInv.apart_header (h : HeapInv heap T L F s) (hb : b ∈ s.live) (hS : S ∈ L cpu k) :
    Apart b.addr (2 ^ b.cls) S sizeofSlab := by
  unfold sizeofSlab
  by_cases hp : b.FromPage
  · have := h.apart_slab hb hp hS
    unfold Apart at this ⊢
    omega
  · rcases h.slab_of_live hb hp with ⟨d, j, Q, hQ, -, -, h1, h2⟩
    unfold Apart
    by_cases hne : Q = S
    · omega
    · have := apart_pages (h.lists.dvd hQ) (h.lists.dvd hS) hne
      omega

/-- No live block contains the link of a free block. -/
theorem HeapInv.apart_free (h : HeapInv heap T L F s) (hb : b ∈ s.live) (hS : S ∈ L cpu k)
    {f : ℕ} (hf : f ∈ F S) : f < b.addr ∨ b.addr + 2 ^ b.cls ≤ f := by
  have hbounds := h.lists.free_bounds hS hf
  by_cases hp : b.FromPage
  · have := h.apart_slab hb hp hS
    unfold Apart at this
    omega
  · rcases h.slab_of_live hb hp with ⟨d, j, Q, hQ, hcls, hmem, h1, h2⟩
    by_cases hne : Q = S
    · subst hne
      rcases h.lists.unique hQ hS with ⟨rfl, rfl⟩
      have hlive : f ≠ b.addr := by
        rintro rfl
        refine h.account.not_live_of_free hS hf (mem_liveIn.2 ⟨⟨b, hb, rfl⟩, by omega, ?_⟩)
        have := Nat.two_pow_pos b.cls
        omega
      have hap := apart_of_mem_slabBlocks ((h.lists.slab d j Q hS).inside f hf) hmem hlive
      have hpos := Nat.two_pow_pos (j + S_8B)
      rw [hcls]
      unfold Apart at hap
      omega
    · have := apart_pages (h.lists.dvd hQ) (h.lists.dvd hS) hne
      omega

/-- Live blocks lie in the units, behind the trees. -/
theorem HeapInv.base_le (h : HeapInv heap T L F s) (hb : b ∈ s.live) : heap.base ≤ b.addr := by
  by_cases hp : b.FromPage
  · exact (h.page_of_live hb hp).base_le
  · rcases h.slab_of_live hb hp with ⟨d, j, Q, hQ, -, -, h1, -⟩
    have := h.lists.base_le hQ
    omega

/-- The test of `kfree` tells where a live block came from. -/
theorem HeapInv.isAligned_iff_fromPage (h : HeapInv heap T L F s) (hb : b ∈ s.live) :
    IsAligned b.addr 12 ↔ b.FromPage := by
  constructor
  · intro hal
    by_contra hp
    rcases h.slab_of_live hb hp with ⟨d, j, Q, hQ, -, -, h1, h2⟩
    have hpos := Nat.two_pow_pos b.cls
    exact not_isAligned_of_inside (h.lists.dvd hQ) (by omega) (by omega) hal
  · exact fun hp => isAligned_iff.2 (h.account.dvd_of_fromPage hb hp)

/-! ## Steps -/

/-- What the holder of a live block writes into it disturbs nothing. -/
theorem HeapInv.write (h : HeapInv heap T L F s) (hb : b ∈ s.live) {a v : ℕ} (h1 : b.addr ≤ a)
    (h2 : a < b.addr + 2 ^ b.cls) : HeapInv heap T L F { s with sys := s.sys.setMem a v } := by
  refine ⟨h.lists.frame ((PageSys.OnlyMem.refl _).setMem a v) rfl (fun x hx => ?_) ?_ ?_, h.account⟩
  · have := h.base_le hb
    exact SlabSys.mem_setMem_ne (by omega)
  · intro c j Q hQ x hx1 hx2
    have := h.apart_header hb hQ
    unfold Apart at this
    exact SlabSys.mem_setMem_ne (by omega)
  · intro c j Q hQ x hx
    have := h.apart_free hb hQ hx
    exact SlabSys.mem_setMem_ne (by omega)

/-- `kalloc` answers `NULL` and changes nothing, or hands out a new block. -/
theorem HeapInv.alloc (h : HeapInv heap T L F s) {fuel size : ℕ} {answer : Option ℕ}
    {σ' : SlabSys} (heq : kalloc fuel cpu size s.sys = some (answer, σ')) :
    ∃ T' L' F', HeapInv heap T' L' F' ⟨σ', newHeapBlocks size answer ++ s.live⟩ := by
  unfold kalloc at heq
  by_cases hpage : transSlabSize size = S_REFUSE
  · rw [slabAlloc_of_refuse hpage] at heq
    rcases pageAlloc_grants h.lists.rep size with
      ⟨-, hnone⟩ | ⟨hsize, p, T', σ₁, hsome, hrep, hgr, hmem⟩
    · rw [hnone] at heq
      rcases Prod.mk.inj (Option.some.inj heq) with ⟨rfl, rfl⟩
      exact ⟨T, L, F, h⟩
    · rw [hsome] at heq
      rcases Prod.mk.inj (Option.some.inj heq) with ⟨rfl, rfl⟩
      exact ⟨T', L, F, h.lists.grant hrep hmem fun B hB => (hgr.given B).2 (Or.inr hB),
        h.account.page h.lists hpage hsize hgr⟩
  · rcases transSlabSize_class hpage with ⟨k, hclass, hlt⟩
    rcases slabAlloc_spec h.lists hclass hlt fuel cpu with ⟨hnone, -⟩ | ⟨-, hnull⟩ |
      ⟨Q, a, rest, σ₁, hQ, hF, hsome, hinv⟩ | ⟨hfull, S, T', a, rest, σ₁, hgr, hF, hsome, hinv⟩
    · cases heq.symm.trans hnone
    · rcases Prod.mk.inj (Option.some.inj (heq.symm.trans hnull)) with ⟨rfl, rfl⟩
      exact ⟨T, L, F, h⟩
    · rcases Prod.mk.inj (Option.some.inj (heq.symm.trans hsome)) with ⟨rfl, rfl⟩
      exact ⟨T, L, _, hinv, h.account.take h.lists hQ hF hclass⟩
    · rcases Prod.mk.inj (Option.some.inj (heq.symm.trans hsome)) with ⟨rfl, rfl⟩
      have hacc := h.account.push h.lists hlt hgr hfull
      have hS : S ∈ setList L cpu k (S :: L cpu k) cpu k := by simp
      have hacc' := hacc.take hinv hS (by rw [Function.update_self, hF]) hclass
      rw [Function.update_idem] at hacc'
      exact ⟨T', _, _, hinv, hacc'⟩

/-- `kfree` takes a live block back. -/
theorem HeapInv.free (h : HeapInv heap T L F s) {fuel : ℕ} (hb : b ∈ s.live) {σ' : SlabSys}
    (heq : kfree fuel b.addr s.sys = some σ') :
    ∃ L' F', HeapInv heap T L' F' ⟨σ', s.live.erase b⟩ := by
  unfold kfree at heq
  by_cases hp : b.FromPage
  · rw [if_pos ((h.isAligned_iff_fromPage hb).2 hp),
      pageFree_given h.lists.rep (h.page_of_live hb hp)] at heq
    obtain rfl := Option.some.inj heq
    exact ⟨L, F, h.lists, h.account.erasePage h.lists hb hp⟩
  · rw [if_neg (mt (h.isAligned_iff_fromPage hb).1 hp)] at heq
    rcases h.account.owned b hb hp with ⟨cpu, k, S, hS, -, h1, h2⟩
    have hlive : b.addr ∈ liveIn S s.live := mem_liveIn.2 ⟨⟨b, hb, rfl⟩, h1, h2⟩
    have hmem := h.account.mem_slabBlocks_of_live hS hlive
    have hnot : b.addr ∉ F S := fun hf => h.account.not_live_of_free hS hf hlive
    rcases slabFree_spec h.lists hS hmem hnot fuel with ⟨hnone, -⟩ | ⟨σ₁, hsome, hkeep, hinv⟩ |
      ⟨σ₁, pre, Q, suf, hsome, hL, hlast, hinv⟩
    · cases heq.symm.trans hnone
    · obtain rfl := Option.some.inj (heq.symm.trans hsome)
      exact ⟨L, _, hinv, h.account.giveBack h.lists hb hS h1 h2 hkeep⟩
    · obtain rfl := Option.some.inj (heq.symm.trans hsome)
      exact ⟨_, F, hinv, h.account.unlink h.lists hb hL h1 h2 hlast⟩

theorem HeapInv.step (h : HeapInv heap T L F s) {e : HeapEvent} (hst : HeapStep n s e s') :
    ∃ T' L' F', HeapInv heap T' L' F' s' := by
  cases hst with
  | alloc _ heq => exact h.alloc heq
  | free _ hb heq => exact ⟨T, h.free hb heq⟩
  | write hb h1 h2 => exact ⟨T, L, F, h.write hb h1 h2⟩

end Blocks

/-! ## Every call comes back -/

section Returns

variable {heap : Area} {T : ℕ → BuddyTree 12} {L : ℕ → ℕ → List ℕ} {F : ℕ → List ℕ}
  {s : HeapState}

/-- With as much fuel as the list has slabs `kalloc` comes back. -/
theorem HeapInv.kalloc_returns (h : HeapInv heap T L F s) (cpu size : ℕ) :
    ∃ fuel r, kalloc fuel cpu size s.sys = some r := by
  unfold kalloc
  by_cases hpage : transSlabSize size = S_REFUSE
  · refine ⟨0, ?_⟩
    rw [slabAlloc_of_refuse hpage]
    rcases pageAlloc_grants h.lists.rep size with ⟨-, hnone⟩ | ⟨-, p, T', σ₁, hsome, -⟩
    · exact ⟨_, by rw [hnone]; rfl⟩
    · exact ⟨_, by rw [hsome]; rfl⟩
  · rcases transSlabSize_class hpage with ⟨k, hclass, hlt⟩
    refine ⟨(L cpu k).length, ?_⟩
    rcases slabAlloc_spec h.lists hclass hlt (L cpu k).length cpu with ⟨-, hno⟩ | ⟨-, heq⟩ |
      ⟨Q, a, rest, σ₁, -, -, heq, -⟩ | ⟨-, S, T', a, rest, σ₁, -, -, heq, -⟩
    · exact absurd hno (Nat.lt_irrefl _)
    · exact ⟨_, heq⟩
    · exact ⟨_, heq⟩
    · exact ⟨_, heq⟩

/-- So does `kfree` on a live block. -/
theorem HeapInv.kfree_returns (h : HeapInv heap T L F s) {b : HeapBlock} (hb : b ∈ s.live) :
    ∃ fuel σ', kfree fuel b.addr s.sys = some σ' := by
  unfold kfree
  by_cases hp : b.FromPage
  · refine ⟨0, s.sys, ?_⟩
    rw [if_pos ((h.isAligned_iff_fromPage hb).2 hp),
      pageFree_given h.lists.rep (h.page_of_live hb hp)]
    rfl
  · rcases h.account.owned b hb hp with ⟨cpu, k, S, hS, -, h1, h2⟩
    have hlive : b.addr ∈ liveIn S s.live := mem_liveIn.2 ⟨⟨b, hb, rfl⟩, h1, h2⟩
    refine ⟨(L cpu k).length, ?_⟩
    rw [if_neg (mt (h.isAligned_iff_fromPage hb).1 hp)]
    rcases slabFree_spec h.lists hS (h.account.mem_slabBlocks_of_live hS hlive)
      (fun hf => h.account.not_live_of_free hS hf hlive) (L cpu k).length with
      ⟨-, hno⟩ | ⟨σ', heq, -⟩ | ⟨σ', pre, Q, suf, heq, -⟩
    · exact absurd hno (Nat.lt_irrefl _)
    · exact ⟨σ', heq⟩
    · exact ⟨σ', heq⟩

end Returns

/-! ## The start -/

section Start

variable {heap : Area} {T : ℕ → BuddyTree 12} {L : ℕ → ℕ → List ℕ} {F : ℕ → List ℕ} {σ : SlabSys}

/-- `slab_init` for a list that is still empty. -/
theorem HeapInv.slabInit (h : HeapInv heap T L F ⟨σ, []⟩) (cpu : ℕ) {k : ℕ} (hk : k + S_8B < S_REFUSE)
    (hempty : L cpu k = []) :
    ∃ answer σ' T' L' F', slabInit cpu (k + S_8B) σ = some (answer, σ') ∧
      HeapInv heap T' L' F' ⟨σ', []⟩ ∧ (∀ c j, ¬ (c = cpu ∧ j = k) → L' c j = L c j) ∧
      (∀ c j, ∀ S ∈ L c j, F' S = F S) ∧
      ((∃ i < heap.units, P_4K ≤ (T i).summary P_4K) →
        ∃ S, L' cpu k = [S] ∧ F' S = (slabBlocks S (k + S_8B)).reverse) := by
  rcases slabInit_spec h.lists cpu hk with ⟨hno, hfail⟩ | ⟨S, T', σ', hinit, hgr, hinv⟩
  · refine ⟨none, σ, T, L, F, hfail, h, fun _ _ _ => rfl, fun _ _ _ _ => rfl, ?_⟩
    rintro ⟨i, hi, hle⟩
    exact absurd hle (Nat.not_le.2 (hno i hi))
  · refine ⟨some S, σ', T', _, _, hinit, ⟨hinv, h.account.push h.lists hk hgr ?_⟩,
      fun c j hcj => setList_of_ne hcj, fun c j R hR => ?_,
      fun _ => ⟨S, by rw [setList_self, hempty], Function.update_self _ _ _⟩⟩
    · rw [hempty]
      simp
    · refine Function.update_of_ne ?_ _ _
      rintro rfl
      exact (hgr.apart _ (h.lists.given c j R hR)).ne rfl

/-- The inner loop of `slab_system_init`, for the classes `sizes` of one CPU. -/
theorem HeapInv.initSizes (h : HeapInv heap T L F ⟨σ, []⟩) (cpu : ℕ) (sizes : List ℕ)
    (hsizes : ∀ size ∈ sizes, S_8B ≤ size ∧ size < S_REFUSE) (hnd : sizes.Nodup)
    (hempty : ∀ k, k + S_8B ∈ sizes → L cpu k = []) :
    ∃ σ' T' L' F', sizes.foldlM (fun σ size => (OsLab.slabInit cpu size σ).map Prod.snd) σ = some σ' ∧
      HeapInv heap T' L' F' ⟨σ', []⟩ ∧
      (∀ c j, ¬ (c = cpu ∧ j + S_8B ∈ sizes) → L' c j = L c j) ∧
      ∀ c j, ∀ S ∈ L c j, F' S = F S := by
  induction sizes generalizing T L F σ with
  | nil => exact ⟨σ, T, L, F, rfl, h, fun _ _ _ => rfl, fun _ _ _ _ => rfl⟩
  | cons size sizes ih =>
      rcases hsizes size List.mem_cons_self with ⟨hge, hlt⟩
      rcases Nat.exists_eq_add_of_le' hge with ⟨k, rfl⟩
      rcases List.nodup_cons.1 hnd with ⟨hnot, hnd'⟩
      obtain ⟨answer, σ₁, T₁, L₁, F₁, hinit, h₁, hL₁, hF₁, -⟩ :=
        h.slabInit cpu hlt (hempty k List.mem_cons_self)
      have hne : ∀ j, j + S_8B ∈ sizes → ¬ j = k := fun j hj he => hnot (he ▸ hj)
      obtain ⟨σ', T', L', F', hfold, h', hL', hF'⟩ := ih h₁
        (fun size hs => hsizes size (List.mem_cons_of_mem _ hs)) hnd' fun j hj => by
          rw [hL₁ _ _ fun hcj => hne j hj hcj.2]
          exact hempty j (List.mem_cons_of_mem _ hj)
      refine ⟨σ', T', L', F', ?_, h', fun c j hcj => ?_, fun c j S hS => ?_⟩
      · rw [List.foldlM_cons, hinit]
        exact hfold
      · rw [hL' c j fun hc => hcj ⟨hc.1, List.mem_cons_of_mem _ hc.2⟩]
        refine hL₁ c j ?_
        rintro ⟨rfl, rfl⟩
        exact hcj ⟨rfl, List.mem_cons_self⟩
      · by_cases hcj : c = cpu ∧ j = k
        · rcases hcj with ⟨rfl, rfl⟩
          rw [hempty j List.mem_cons_self] at hS
          cases hS
        · rw [hF' c j S (hL₁ c j hcj ▸ hS), hF₁ c j S hS]

theorem sizes_spec : (∀ size ∈ List.range' S_8B (S_REFUSE - S_8B), S_8B ≤ size ∧ size < S_REFUSE) ∧
    (List.range' S_8B (S_REFUSE - S_8B)).Nodup := by
  decide

/-- The outer loop. -/
theorem HeapInv.initCpus (cpus : List ℕ) (h : HeapInv heap T L F ⟨σ, []⟩) (hnd : cpus.Nodup)
    (hempty : ∀ cpu ∈ cpus, ∀ k, L cpu k = []) :
    ∃ σ' T' L' F', cpus.foldlM (fun σ cpu =>
        (List.range' S_8B (S_REFUSE - S_8B)).foldlM (fun σ size =>
          (OsLab.slabInit cpu size σ).map Prod.snd) σ) σ = some σ' ∧
      HeapInv heap T' L' F' ⟨σ', []⟩ := by
  induction cpus generalizing T L F σ with
  | nil => exact ⟨σ, T, L, F, rfl, h⟩
  | cons cpu cpus ih =>
      rcases List.nodup_cons.1 hnd with ⟨hnot, hnd'⟩
      obtain ⟨σ₁, T₁, L₁, F₁, hfold₁, h₁, hL₁, -⟩ := h.initSizes cpu _ sizes_spec.1
        sizes_spec.2 fun k _ => hempty cpu List.mem_cons_self k
      obtain ⟨σ', T', L', F', hfold, h'⟩ := ih h₁ hnd' fun c hc k => by
        rw [hL₁ c k fun hck => hnot (hck.1 ▸ hc)]
        exact hempty c (List.mem_cons_of_mem _ hc) k
      refine ⟨σ', T', L', F', ?_, h'⟩
      rw [List.foldlM_cons, hfold₁]
      exact hfold

variable (heap) (mem : ℕ → ℕ)

/-- What `page_system_init` leaves to `slab_system_init`. -/
theorem heapInv_pages : HeapInv heap (fun _ => .free) (fun _ _ => []) (fun _ => [])
    ⟨⟨pageSystemStart heap mem, fun _ _ => none⟩, []⟩ where
  lists := ⟨represents_start heap mem, fun _ _ => .nil, nofun, nofun, nofun⟩
  account := ⟨nofun, nofun, nofun, nofun, List.nodup_nil⟩

/-- `pmm_init` comes back, and leaves a heap without live blocks that satisfies the invariant. -/
theorem pmmInit_spec (n : ℕ) : ∃ σ T L F,
    pmmInit heap.start heap.stop n (SlabSys.boot mem) = some σ ∧ HeapInv heap T L F ⟨σ, []⟩ :=
  (heapInv_pages heap mem).initCpus (List.range n) List.nodup_range fun _ _ _ => rfl

end Start

/-- The invariant holds in every state of every run. -/
theorem HeapRun.inv {heap : Area} {n : ℕ} {mem : ℕ → ℕ} {h : List (HeapState × HeapEvent)}
    {s : HeapState} (hr : HeapRun heap n mem h s) : ∃ T L F, HeapInv heap T L F s := by
  refine hr.invariant (I := fun s => ∃ T L F, HeapInv heap T L F s) ?_ ?_
  · rintro ⟨σ, live⟩ ⟨hinit, rfl⟩
    rcases pmmInit_spec heap mem n with ⟨σ', T, L, F, hinit', hinv⟩
    obtain rfl := Option.some.inj (hinit.symm.trans hinit')
    exact ⟨T, L, F, hinv⟩
  · rintro s e t ⟨T, L, F, hinv⟩ hst
    exact hinv.step hst

/-! ## A run with two live blocks -/

/-- A request is served from the only slab on the list. -/
theorem HeapInv.exists_kalloc {heap : Area} {T : ℕ → BuddyTree 12} {L : ℕ → ℕ → List ℕ}
    {F : ℕ → List ℕ} {s : HeapState} (h : HeapInv heap T L F s) {cpu k size S a : ℕ}
    {rest : List ℕ} (hclass : transSlabSize size = k + S_8B) (hL : L cpu k = [S])
    (hF : F S = a :: rest) :
    ∃ fuel σ', kalloc fuel cpu size s.sys = some (some a, σ') ∧
      HeapInv heap T L (Function.update F S rest) ⟨σ', ⟨a, size⟩ :: s.live⟩ := by
  have hS : S ∈ L cpu k := hL ▸ List.mem_singleton_self S
  have hne : F S ≠ [] := hF ▸ List.cons_ne_nil a rest
  have hlt := h.lists.class_lt cpu k S hS
  refine ⟨(L cpu k).length, ?_⟩
  rcases slabAlloc_spec h.lists hclass hlt (L cpu k).length cpu with ⟨-, hno⟩ | ⟨hfull, -⟩ |
    ⟨Q, a', rest', σ', hQ, hF', heq, hinv⟩ | ⟨hfull, -⟩
  · exact absurd hno (Nat.lt_irrefl _)
  · exact absurd (hfull.1 S hS) hne
  · obtain rfl : Q = S := List.mem_singleton.1 (hL ▸ hQ)
    obtain ⟨rfl, rfl⟩ := List.cons.inj (hF'.symm.trans hF)
    exact ⟨σ', heq, hinv, h.account.take h.lists hS hF hclass⟩
  · exact absurd (hfull S hS) hne

/-- On two CPUs and a heap of one unit, CPU 0 has a slab of 8-byte blocks at the start. -/
theorem exists_start_twoCpus : ∃ σ T L F, HeapStart oneUnit 2 (fun _ => 0) ⟨σ, []⟩ ∧
    HeapInv oneUnit T L F ⟨σ, []⟩ ∧
    ∃ S, L 0 0 = [S] ∧ F S = (slabBlocks S (0 + S_8B)).reverse := by
  -- it is the first slab that `slab_system_init` makes
  have hroom : ∃ i < oneUnit.units, P_4K ≤ (BuddyTree.free : BuddyTree 12).summary P_4K :=
    ⟨0, units_oneUnit ▸ Nat.zero_lt_one, by decide⟩
  obtain ⟨answer, σ₁, T₁, L₁, F₁, hinit, h₁, hL₁, -, hfree⟩ :=
    (heapInv_pages oneUnit fun _ => 0).slabInit 0 (show 0 + S_8B < S_REFUSE by decide) rfl
  rcases hfree hroom with ⟨S, hS, hF⟩
  -- the other classes of CPU 0, and then CPU 1
  obtain ⟨σ₂, T₂, L₂, F₂, hfold₂, h₂, hL₂, hF₂⟩ := h₁.initSizes 0 (List.range' 4 8)
    (by decide) (by decide) fun k hk => by
      refine hL₁ 0 k fun hk0 => ?_
      rw [hk0.2] at hk
      exact absurd hk (by decide)
  obtain ⟨σ₃, T₃, L₃, F₃, hfold₃, h₃, hL₃, hF₃⟩ := h₂.initSizes 1 _ sizes_spec.1 sizes_spec.2
    fun k _ => (hL₂ 1 k fun hk => absurd hk.1 (by decide)).trans
      (hL₁ 1 k fun hk => absurd hk.1 (by decide))
  have hS₂ : L₂ 0 0 = [S] := (hL₂ 0 0 (by decide)).trans hS
  have hS₃ : L₃ 0 0 = [S] := (hL₃ 0 0 (by decide)).trans hS₂
  refine ⟨σ₃, T₃, L₃, F₃, ⟨?_, rfl⟩, h₃, S, hS₃, ?_⟩
  · have hinner : (List.range' S_8B (S_REFUSE - S_8B)).foldlM (fun σ size =>
        (OsLab.slabInit 0 size σ).map Prod.snd)
          (⟨pageSystemStart oneUnit fun _ => 0, fun _ _ => none⟩ : SlabSys) = some σ₂ := by
      change (3 :: List.range' 4 8).foldlM _ _ = _
      rw [List.foldlM_cons, show OsLab.slabInit 0 3 _ = some (answer, σ₁) from hinit]
      exact hfold₂
    change [0, 1].foldlM (fun σ cpu => (List.range' S_8B (S_REFUSE - S_8B)).foldlM (fun σ size =>
      (OsLab.slabInit cpu size σ).map Prod.snd) σ)
        (⟨pageSystemStart oneUnit fun _ => 0, fun _ _ => none⟩ : SlabSys) = some σ₃
    rw [List.foldlM_cons, hinner, Option.bind_eq_bind, Option.bind_some, List.foldlM_cons, hfold₃]
    rfl
  · rw [hF₃ 0 0 S (hS₂ ▸ List.mem_singleton_self S), hF₂ 0 0 S (hS ▸ List.mem_singleton_self S), hF]

/-- CPU 0 requests 5 bytes three times, and CPU 1 frees the first block. -/
theorem exists_run_twoBlocks : ∃ h s p q r, HeapRun oneUnit 2 (fun _ => 0) h s ∧
    (∃ t, (t, .free 1 ⟨p, 5⟩) ∈ h) ∧ s.live = [⟨r, 5⟩, ⟨q, 5⟩] := by
  rcases exists_start_twoCpus with ⟨σ, T, L, F, hstart, hinv, S, hL, hF⟩
  have hlen : (F S).length = 504 := by
    rw [hF, List.length_reverse, length_slabBlocks]
    rfl
  obtain ⟨p, q, r, rest, hF⟩ : ∃ p q r rest, F S = p :: q :: r :: rest := by
    match F S, hlen with
    | p :: q :: r :: rest, _ => exact ⟨p, q, r, rest, rfl⟩
  have hclass : transSlabSize 5 = 0 + S_8B := rfl
  obtain ⟨fuel₁, σ₁, hp, h₁⟩ := hinv.exists_kalloc hclass hL hF
  obtain ⟨fuel₂, σ₂, hq, h₂⟩ := h₁.exists_kalloc hclass hL (Function.update_self ..)
  obtain ⟨fuel₃, σ₃, hr, h₃⟩ := h₂.exists_kalloc hclass hL (Function.update_self ..)
  obtain ⟨fuel₄, σ₄, hfree⟩ := h₃.kfree_returns (b := ⟨p, 5⟩) (by simp)
  have hrun : HeapRun oneUnit 2 (fun _ => 0) _ _ :=
    Run.snoc (Run.snoc (Run.snoc (Run.snoc (Run.start hstart)
      (.alloc (show 0 < 2 by decide) hp)) (.alloc (show 0 < 2 by decide) hq))
      (.alloc (show 0 < 2 by decide) hr))
      (.free (show 1 < 2 by decide) (b := ⟨p, 5⟩) (by simp [newHeapBlocks]) hfree)
  -- the blocks differ, since no two live ones are the same
  have hnd : [r, q, p].Nodup := h₃.account.distinct
  have hrp : r ≠ p := fun h => (List.nodup_cons.1 hnd).1 (h ▸ by simp)
  have hqp : q ≠ p := fun h =>
    (List.nodup_cons.1 (List.nodup_cons.1 hnd).2).1 (h ▸ List.mem_singleton_self p)
  refine ⟨_, _, p, q, r, hrun, ⟨_, List.mem_cons_self⟩, ?_⟩
  have hr : (⟨r, 5⟩ : HeapBlock) ≠ ⟨p, 5⟩ := fun h => hrp (HeapBlock.mk.inj h).1
  have hq : (⟨q, 5⟩ : HeapBlock) ≠ ⟨p, 5⟩ := fun h => hqp (HeapBlock.mk.inj h).1
  change [(⟨r, 5⟩ : HeapBlock), ⟨q, 5⟩, ⟨p, 5⟩].erase _ = _
  rw [List.erase_cons_tail (by simpa using hr), List.erase_cons_tail (by simpa using hq),
    List.erase_cons_head]

end OsLab
