import OsLab.Page.Init

/-! # `page_alloc` and `page_free` on the trees of all units

`Represents heap σ T`: the globals are those of `page_system_init`, no lock is
held, and the tree of unit `i` represents the buddy tree `T i`.

* `pageAlloc_some`, `pageAlloc_none`: what `page_alloc` returns, and which tree it changes;
* `pageFree_eq`: on an address inside a unit `page_free` leaves the state as it is.
-/

namespace OsLab

open Buddy

/-- The 16 MiB units of a heap with the buddy trees `T`: what the state `σ` stands for. -/
structure PageSys.Represents (heap : Area) (σ : PageSys) (T : ℕ → BuddyTree 12) : Prop where
  layout : σ.Layout heap
  locks : ∀ i, σ.pageLocks i = 0
  rep : ∀ i < heap.units, Rep (σ.node (heap.treeAddr i)) (T i) 1
  proper : ∀ i < heap.units, (T i).Proper

/-- `B` is one of the blocks given out. -/
def Given (heap : Area) (T : ℕ → BuddyTree 12) (B : Block) : Prop :=
  ∃ i < heap.units, B ∈ (T i).blocks P_4K (heap.unitAddr i)

theorem represents_start (heap : Area) (mem : ℕ → ℕ) :
    (pageSystemStart heap mem).Represents heap fun _ => .free where
  layout := layout_start heap mem
  locks := locks_start heap mem
  rep _ hi := rep_start heap mem hi
  proper _ _ := trivial

/-! ## Blocks given out -/

section Given

variable {heap : Area} {T : ℕ → BuddyTree 12} {B C : Block}

theorem Given.aligned (h : Given heap T B) : B.size ∣ B.addr := by
  rcases h with ⟨i, -, hB⟩
  exact BuddyTree.aligned_of_mem_blocks (heap.dvd_unitAddr i) hB

/-- A block given out lies in one unit. -/
theorem Given.inside (h : Given heap T B) :
    ∃ i < heap.units, heap.unitAddr i ≤ B.addr ∧ B.addr + B.size ≤ heap.unitAddr i + PHSICS_UNIT := by
  rcases h with ⟨i, hi, hB⟩
  exact ⟨i, hi, (BuddyTree.inside_of_mem_blocks hB).2⟩

/-- Addresses in different units differ. -/
theorem unitAddr_apart (heap : Area) {i j : ℕ} (hij : i ≠ j) :
    Apart (heap.unitAddr i) PHSICS_UNIT (heap.unitAddr j) PHSICS_UNIT := by
  unfold Apart Area.unitAddr
  simp only [PHSICS_UNIT]
  omega

/-- Different blocks given out do not overlap. -/
theorem Given.apart (hB : Given heap T B) (hC : Given heap T C) (hne : B ≠ C) : B.Apart C := by
  rcases hB with ⟨i, hi, hBi⟩
  rcases hC with ⟨j, hj, hCj⟩
  by_cases hij : i = j
  · subst hij
    exact (BuddyTree.pairwise_blocks (T i) (heap.unitAddr i)).forall hBi hCj hne
  · have h1 := (BuddyTree.inside_of_mem_blocks hBi).2
    have h2 := (BuddyTree.inside_of_mem_blocks hCj).2
    have h3 := unitAddr_apart heap hij
    have e : (2 : ℕ) ^ (P_4K + 12) = PHSICS_UNIT := rfl
    simp only [Block.Inside, Block.size, e] at h1 h2
    unfold Buddy.Apart at h3
    unfold Block.Apart Buddy.Apart Block.size
    omega

/-- No block given out touches the trees. -/
theorem Given.base_le (h : Given heap T B) : heap.base ≤ B.addr := by
  rcases h.inside with ⟨i, -, h1, -⟩
  unfold Area.unitAddr at h1
  omega

end Given

/-! ## Locks -/

namespace PageSys

/-- The state with the lock of unit `i` taken. -/
def locked (σ : PageSys) (i : ℕ) : PageSys :=
  { σ with pageLocks := Function.update σ.pageLocks i 1 }

theorem lockPage_eq {σ : PageSys} {i : ℕ} (h : σ.pageLocks i = 0) :
    σ.lockPage i = some (σ.locked i) := by
  simp [lockPage, lock, h, locked]

/-- Taking a free lock and releasing it changes nothing. -/
theorem unlockPage_locked {σ : PageSys} {i : ℕ} (h : σ.pageLocks i = 0) :
    (σ.locked i).unlockPage i = σ := by
  have : Function.update (Function.update σ.pageLocks i 1) i unlock = σ.pageLocks := by
    rw [Function.update_idem, show unlock = σ.pageLocks i from h.symm, Function.update_eq_self]
  simp only [locked, unlockPage, this]

end PageSys

/-! ## `page_alloc` -/

/-- The search loop stops at the first unit whose root is large enough, and holds its lock. -/
theorem findPage_some {σ : PageSys} {c n i j : ℕ} (hlock : ∀ k, σ.pageLocks k = 0)
    (hj : i ≤ j) (hjn : j < i + n) (hge : c ≤ σ.node (σ.pagePool j) 1)
    (hlt : ∀ k, i ≤ k → k < j → σ.node (σ.pagePool k) 1 < c) :
    findPage c n i σ = some (some j, σ.locked j) := by
  induction n generalizing i with
  | zero => omega
  | succ n ih =>
      rw [findPage, PageSys.lockPage_eq (hlock i), Option.bind_some]
      by_cases hij : i = j
      · subst hij
        exact if_pos hge
      · have hlow : ¬ (σ.locked i).node ((σ.locked i).pagePool i) 1 ≥ c :=
          Nat.not_le.2 (hlt i (Nat.le_refl _) (by omega))
        rw [if_neg hlow, PageSys.unlockPage_locked (hlock i)]
        exact ih (by omega) (by omega) fun k hk => hlt k (by omega)

/-- The search loop finds nothing when every root is too small. -/
theorem findPage_none {σ : PageSys} {c n i : ℕ} (hlock : ∀ k, σ.pageLocks k = 0)
    (hlt : ∀ k, i ≤ k → k < i + n → σ.node (σ.pagePool k) 1 < c) :
    findPage c n i σ = some (none, σ) := by
  induction n generalizing i with
  | zero => rfl
  | succ n ih =>
      rw [findPage, PageSys.lockPage_eq (hlock i), Option.bind_some]
      have hlow : ¬ (σ.locked i).node ((σ.locked i).pagePool i) 1 ≥ c :=
        Nat.not_le.2 (hlt i (Nat.le_refl _) (by omega))
      rw [if_neg hlow, PageSys.unlockPage_locked (hlock i)]
      exact ih fun k hk hk' => hlt k (by omega) (by omega)

theorem P_4K_le_transPageSize (size : ℕ) : P_4K ≤ transPageSize size :=
  first_le_transSize (by decide) size

theorem transPageSize_le (size : ℕ) : transPageSize size ≤ P_REFUSE :=
  transSize_le (by decide) size

/-- A size is refused exactly when it exceeds 16 MiB. -/
theorem transPageSize_eq_refuse (size : ℕ) : transPageSize size = P_REFUSE ↔ 2 ^ 24 < size :=
  transSize_eq_refuse (by decide) size

/-- The class of a size that is not refused is large enough for it. -/
theorem le_two_pow_transPageSize {size : ℕ} (h : transPageSize size ≠ P_REFUSE) :
    size ≤ 2 ^ transPageSize size := by
  rcases transSize_spec (show P_4K ≤ P_REFUSE by decide) size with h' | h'
  · exact h'.2.2.1
  · exact (h h'.1).elim

/-- The class of a size up to 16 MiB is a class of the tree. -/
theorem transPageSize_bounds {size : ℕ} (h : ¬ 2 ^ 24 < size) :
    P_4K ≤ transPageSize size ∧ transPageSize size ≤ P_16M := by
  have href : transPageSize size ≠ P_REFUSE := fun he => h ((transPageSize_eq_refuse size).1 he)
  have hle := transPageSize_le size
  refine ⟨P_4K_le_transPageSize size, ?_⟩
  simp only [P_REFUSE, P_16M] at hle href ⊢
  omega

/-- `page_alloc` refuses sizes above 16 MiB. -/
theorem pageAlloc_refuse {size : ℕ} (h : 2 ^ 24 < size) (σ : PageSys) :
    pageAlloc size σ = some (none, σ) := by
  unfold pageAlloc
  exact if_pos ((transPageSize_eq_refuse size).2 h)

/-- Past its checks, `page_alloc` searches a unit and allocates there. -/
theorem pageAlloc_eq {size : ℕ} (h : ¬ 2 ^ 24 < size) (σ : PageSys) :
    pageAlloc size σ =
      (findPage (transPageSize size) σ.realPageNum 0 σ).bind
        (allocFound (transPageSize size)) := by
  have hb := transPageSize_bounds h
  have href : ¬ transPageSize size = P_REFUSE := fun he => h ((transPageSize_eq_refuse size).1 he)
  have hcheck : ¬ (transPageSize size > P_16M ∨ transPageSize size < P_4K) := by omega
  exact (if_neg href).trans (if_neg hcheck)

section Represents

variable {heap : Area} {σ : PageSys} {T : ℕ → BuddyTree 12}

theorem PageSys.Represents.root (h : σ.Represents heap T) {i : ℕ} (hi : i < heap.units) :
    σ.node (σ.pagePool i) 1 = (T i).summary P_4K := by
  rw [h.layout.pagePool i hi]
  exact (h.rep i hi).val

/-- The root of a tree stands for its whole unit. -/
theorem convert_root (h : σ.Layout heap) (i : ℕ) :
    convertPageToPhsics σ (heap.treeAddr i) 1 P_16M = heap.unitAddr i := by
  have hgap : heap.treeAddr i - σ.beginPageAddr = i * MAX_PAGE_SIZE := by
    rw [h.beginPageAddr, Area.treeAddr, Nat.add_sub_cancel_left]
  have hdiv : i * MAX_PAGE_SIZE / MAX_PAGE_SIZE = i := Nat.mul_div_cancel _ (by decide)
  unfold convertPageToPhsics
  simp only [hgap, hdiv, h.beginAllocAddr, Area.unitAddr]
  exact Nat.add_zero _

/-- The trees are `MAX_PAGE_SIZE` bytes apart. -/
theorem Area.treeAddr_add_ne (heap : Area) {i j k k' : ℕ} (hij : i ≠ j) (hk : k < PAGE_NODE_NUM)
    (hk' : k' < PAGE_NODE_NUM) : heap.treeAddr i + k ≠ heap.treeAddr j + k' := by
  intro he
  apply hij
  unfold treeAddr at he
  simp only [MAX_PAGE_SIZE, PAGE_NODE_NUM] at he hk hk'
  omega

/-- Changing the tree of one unit leaves the trees of the others as they are. -/
theorem PageSys.Represents.update {σ' : PageSys} {i : ℕ} {t : BuddyTree 12}
    (h : σ.Represents heap T) (hi : i < heap.units)
    (hch : σ.ChangesUnder (heap.treeAddr i) 1 σ')
    (hrep : Rep (σ'.node (heap.treeAddr i)) t 1) (ht : t.Proper) :
    σ'.Represents heap (Function.update T i t) := by
  refine ⟨⟨?_, ?_, ?_, ?_⟩, ?_, ?_, ?_⟩
  · rw [hch.beginPageAddr, h.layout.beginPageAddr]
  · rw [hch.beginAllocAddr, h.layout.beginAllocAddr]
  · rw [hch.realPageNum, h.layout.realPageNum]
  · rw [hch.pagePool]
    exact h.layout.pagePool
  · rw [hch.pageLocks]
    exact h.locks
  · intro j hj
    by_cases hij : j = i
    · subst hij
      rw [Function.update_self]
      exact hrep
    · rw [Function.update_of_ne hij]
      exact (h.rep j hj).congr atHeight_root fun k _ hk => hch.mem _ fun k' _ hk' =>
        heap.treeAddr_add_ne hij hk hk'
  · intro j hj
    by_cases hij : j = i
    · subst hij
      rw [Function.update_self]
      exact ht
    · rw [Function.update_of_ne hij]
      exact h.proper j hj

/-- The address of a fresh block, aligned as the tree has it. -/
theorem isAligned_block {c i o : ℕ} {t t' : BuddyTree 12} (hc : P_4K ≤ c)
    (ha : t.alloc P_4K c = some (o, t')) : IsAligned (heap.unitAddr i + o) c := by
  have hmem : (⟨heap.unitAddr i + o, c⟩ : Block) ∈ t'.blocks P_4K (heap.unitAddr i) :=
    (BuddyTree.blocks_alloc hc ha _).mem_iff.2 List.mem_cons_self
  exact isAligned_iff.2 (BuddyTree.aligned_of_mem_blocks (heap.dvd_unitAddr i) hmem)

/-- `alloc_space_from_page` on the tree of unit `i`, whoever holds the locks. -/
theorem allocSpaceFromPage_spec {c i o : ℕ} {t t' : BuddyTree 12} (hl : σ.Layout heap)
    (hi : i < heap.units) (hrep : Rep (σ.node (heap.treeAddr i)) t 1) (hc : P_4K ≤ c)
    (ha : t.alloc P_4K c = some (o, t')) :
    ∃ σ', allocSpaceFromPage (σ.pagePool i) c σ = (some (heap.unitAddr i + o), σ') ∧
      Rep (σ'.node (heap.treeAddr i)) t' 1 ∧ σ.ChangesUnder (heap.treeAddr i) 1 σ' := by
  obtain ⟨σ', hget, hrep', hch⟩ :=
    getSpaceInPage_spec (heap.treeAddr_ne_zero i) hc atHeight_root hrep ha
  have hroot : convertPageToPhsics σ (heap.treeAddr i) 1 (P_4K + 12) = heap.unitAddr i :=
    convert_root hl i
  rw [hroot] at hget
  refine ⟨σ', ?_, hrep', hch⟩
  have hget' : getSpaceInPage (heap.treeAddr i) c P_16M 1 σ =
      (some (heap.unitAddr i + o), σ') := hget
  rw [allocSpaceFromPage, hl.pagePool i hi, hget']
  exact if_pos (isAligned_block hc ha)

/-- The tree of a unit lies below the units. -/
theorem Area.ne_treeAddr_of_base_le (heap : Area) {i a : ℕ} (hi : i < heap.units)
    (ha : heap.base ≤ a) : ∀ j < PAGE_NODE_NUM, a ≠ heap.treeAddr i + j := by
  intro j hj
  have hend := heap.treeAddr_lt hi
  simp only [MAX_PAGE_SIZE, PAGE_NODE_NUM] at hend hj
  omega

/-- Taking the lock of unit `i`, allocating below it and releasing the lock. -/
theorem PageSys.Represents.allocLocked (h : σ.Represents heap T) {c i : ℕ} (hi : i < heap.units)
    (hc : P_4K ≤ c) (hge : c ≤ (T i).summary P_4K) :
    ∃ o t' σ', (T i).alloc P_4K c = some (o, t') ∧
      allocSpaceFromPage (σ.pagePool i) c (σ.locked i) = (some (heap.unitAddr i + o), σ') ∧
      (σ'.unlockPage i).Represents heap (Function.update T i t') ∧
      ∀ a, (∀ j < PAGE_NODE_NUM, a ≠ heap.treeAddr i + j) → σ'.mem a = σ.mem a := by
  have hc1 : 1 < c := Nat.lt_of_lt_of_le (by decide) hc
  rcases BuddyTree.alloc_isSome hc hc1 hge with ⟨o, t', ha⟩
  have hl : (σ.locked i).Layout heap :=
    ⟨h.layout.beginPageAddr, h.layout.beginAllocAddr, h.layout.realPageNum, h.layout.pagePool⟩
  have hrep : Rep ((σ.locked i).node (heap.treeAddr i)) (T i) 1 := h.rep i hi
  rcases allocSpaceFromPage_spec hl hi hrep hc ha with ⟨σ', hget, hrep', hch⟩
  -- the lock is back at what it was
  have hlocks : (σ'.unlockPage i).pageLocks = σ.pageLocks := by
    rw [← PageSys.unlockPage_locked (h.locks i)]
    exact congrArg (fun l => Function.update l i unlock) hch.pageLocks
  refine ⟨o, t', σ', ha, hget, h.update hi ?_ hrep' ((h.proper i hi).alloc hc ha), ?_⟩
  · exact ⟨hch.beginPageAddr, hch.beginAllocAddr, hch.realPageNum, hch.pagePool, hlocks, hch.mem⟩
  · exact fun a ha => hch.mem a fun j _ hj => ha j hj

/-- The block handed out by a unit is new, and everything given out before stays so. -/
theorem given_update {c i o : ℕ} {t' : BuddyTree 12} (hi : i < heap.units) (hc : P_4K ≤ c)
    (ha : (T i).alloc P_4K c = some (o, t')) (B : Block) :
    Given heap (Function.update T i t') B ↔ B = ⟨heap.unitAddr i + o, c⟩ ∨ Given heap T B := by
  have hmem : ∀ B, B ∈ t'.blocks P_4K (heap.unitAddr i) ↔
      B = ⟨heap.unitAddr i + o, c⟩ ∨ B ∈ (T i).blocks P_4K (heap.unitAddr i) := fun B => by
    rw [(BuddyTree.blocks_alloc hc ha _).mem_iff, List.mem_cons]
  constructor
  · rintro ⟨j, hj, hB⟩
    by_cases hij : j = i
    · subst hij
      rw [Function.update_self] at hB
      exact ((hmem B).1 hB).imp_right fun h => ⟨j, hj, h⟩
    · rw [Function.update_of_ne hij] at hB
      exact Or.inr ⟨j, hj, hB⟩
  · rintro (rfl | ⟨j, hj, hB⟩)
    · refine ⟨i, hi, ?_⟩
      rw [Function.update_self]
      exact (hmem _).2 (Or.inl rfl)
    · refine ⟨j, hj, ?_⟩
      by_cases hij : j = i
      · subst hij
        rw [Function.update_self]
        exact (hmem B).2 (Or.inr hB)
      · rwa [Function.update_of_ne hij]

/-- The block handed out does not overlap anything given out before. -/
theorem apart_of_alloc {c i o : ℕ} {t' : BuddyTree 12} (hi : i < heap.units) (hc : P_4K ≤ c)
    (ha : (T i).alloc P_4K c = some (o, t')) {B : Block} (hB : Given heap T B) :
    B.Apart ⟨heap.unitAddr i + o, c⟩ := by
  rcases hB with ⟨j, hj, hBj⟩
  by_cases hij : j = i
  · subst hij
    have hpair := (BuddyTree.blocks_alloc hc ha (heap.unitAddr j)).pairwise_iff
      (fun h => Block.Apart.symm h) |>.1 (BuddyTree.pairwise_blocks t' (heap.unitAddr j))
    exact ((List.pairwise_cons.1 hpair).1 B hBj).symm
  · have hnew : Given heap (Function.update T i t') ⟨heap.unitAddr i + o, c⟩ :=
      (given_update hi hc ha _).2 (Or.inl rfl)
    have hold : Given heap (Function.update T i t') B :=
      (given_update hi hc ha _).2 (Or.inr ⟨j, hj, hBj⟩)
    refine hold.apart hnew fun he => hij ?_
    -- the two blocks lie in different units
    subst he
    have hmem : (⟨heap.unitAddr i + o, c⟩ : Block) ∈ t'.blocks P_4K (heap.unitAddr i) :=
      (BuddyTree.blocks_alloc hc ha _).mem_iff.2 List.mem_cons_self
    have h1 := (BuddyTree.inside_of_mem_blocks hBj).2
    have h2 := (BuddyTree.inside_of_mem_blocks hmem).2
    have h3 := Nat.two_pow_pos c
    by_contra hne
    have h4 := unitAddr_apart heap hne
    have e : (2 : ℕ) ^ (P_4K + 12) = PHSICS_UNIT := rfl
    simp only [Block.Inside, Block.size, e] at h1 h2
    unfold Buddy.Apart at h4
    omega

/-! ### The whole of `page_alloc` -/

/-- A request that no unit can serve is answered with `NULL`, and nothing changes. -/
theorem pageAlloc_none (h : σ.Represents heap T) {size : ℕ}
    (hno : 2 ^ 24 < size ∨ ∀ i < heap.units, (T i).summary P_4K < transPageSize size) :
    pageAlloc size σ = some (none, σ) := by
  by_cases hbig : 2 ^ 24 < size
  · exact pageAlloc_refuse hbig σ
  · have hno' := hno.resolve_left hbig
    rw [pageAlloc_eq hbig, h.layout.realPageNum, findPage_none h.locks]
    · rfl
    · intro k _ hk
      rw [h.root (by omega)]
      exact hno' k (by omega)

/-- Otherwise the first unit that can serve the request does, as its buddy tree says. -/
theorem pageAlloc_some (h : σ.Represents heap T) {size i : ℕ} (hsize : ¬ 2 ^ 24 < size)
    (hi : i < heap.units) (hge : transPageSize size ≤ (T i).summary P_4K) :
    ∃ j < heap.units, transPageSize size ≤ (T j).summary P_4K ∧
      ∃ o t' σ', (T j).alloc P_4K (transPageSize size) = some (o, t') ∧
      pageAlloc size σ = some (some (heap.unitAddr j + o), σ') ∧
      σ'.Represents heap (Function.update T j t') ∧
      ∀ a, (∀ k < PAGE_NODE_NUM, a ≠ heap.treeAddr j + k) → σ'.mem a = σ.mem a := by
  -- the first unit with room
  have hex : ∃ k, k < heap.units ∧ transPageSize size ≤ (T k).summary P_4K := ⟨i, hi, hge⟩
  rcases Nat.find_spec hex with ⟨hj, hgej⟩
  have hmin : ∀ k, k < Nat.find hex → (T k).summary P_4K < transPageSize size := fun k hk => by
    have := Nat.find_min hex hk
    by_contra hge'
    exact this ⟨by omega, by omega⟩
  generalize Nat.find hex = j at hj hgej hmin
  rcases h.allocLocked hj (transPageSize_bounds hsize).1 hgej with ⟨o, t', σ', ha, hget, hrep, hmem⟩
  refine ⟨j, hj, hgej, o, t', _, ha, ?_, hrep, hmem⟩
  have hfind : findPage (transPageSize size) heap.units 0 σ = some (some j, σ.locked j) := by
    refine findPage_some h.locks (Nat.zero_le _) (by omega) ?_ fun k _ hk => ?_
    · rw [h.root hj]
      exact hgej
    · rw [h.root (by omega)]
      exact hmin k hk
  have hnum : (σ.locked j).realPageNum = heap.units := h.layout.realPageNum
  rw [pageAlloc_eq hsize, h.layout.realPageNum, hfind, Option.bind_some, allocFound, hnum,
    if_neg (by omega)]
  exact congrArg (fun r : Option ℕ × PageSys => some (r.1, r.2.unlockPage j)) hget

/-- The two ways a call of `page_alloc` can go. Above the trees memory stays as it is. -/
theorem pageAlloc_cases (h : σ.Represents heap T) (size : ℕ) :
    ((2 ^ 24 < size ∨ ∀ i < heap.units, (T i).summary P_4K < transPageSize size) ∧
      pageAlloc size σ = some (none, σ)) ∨
    ((¬ 2 ^ 24 < size ∧ ∃ i < heap.units, transPageSize size ≤ (T i).summary P_4K) ∧
      ∃ j < heap.units, transPageSize size ≤ (T j).summary P_4K ∧
        ∃ o t' σ', (T j).alloc P_4K (transPageSize size) = some (o, t') ∧
        pageAlloc size σ = some (some (heap.unitAddr j + o), σ') ∧
        σ'.Represents heap (Function.update T j t') ∧
        ∀ a, heap.base ≤ a → σ'.mem a = σ.mem a) := by
  by_cases hno : 2 ^ 24 < size ∨ ∀ i < heap.units, (T i).summary P_4K < transPageSize size
  · exact Or.inl ⟨hno, pageAlloc_none h hno⟩
  · right
    push Not at hno
    rcases hno with ⟨hsize, i, hi, hge⟩
    refine ⟨⟨Nat.not_lt.2 hsize, i, hi, hge⟩, ?_⟩
    rcases pageAlloc_some h (Nat.not_lt.2 hsize) hi hge with
      ⟨j, hj, hgej, o, t', σ', ha, hq, hrep, hmem⟩
    exact ⟨j, hj, hgej, o, t', σ', ha, hq, hrep,
      fun a hle => hmem a (heap.ne_treeAddr_of_base_le hj hle)⟩

/-- Between `T` and `T'` the block `B` was given out, which overlaps nothing given out before. -/
structure Grants (heap : Area) (T T' : ℕ → BuddyTree 12) (B : Block) : Prop where
  given : ∀ C, Given heap T' C ↔ C = B ∨ Given heap T C
  apart : ∀ C, Given heap T C → C.Apart B

/-- A call of `page_alloc` in terms of the blocks given out. -/
theorem pageAlloc_grants (h : σ.Represents heap T) (size : ℕ) :
    ((2 ^ 24 < size ∨ ∀ i < heap.units, (T i).summary P_4K < transPageSize size) ∧
      pageAlloc size σ = some (none, σ)) ∨
    (¬ 2 ^ 24 < size ∧ ∃ p T' σ', pageAlloc size σ = some (some p, σ') ∧ σ'.Represents heap T' ∧
      Grants heap T T' ⟨p, transPageSize size⟩ ∧ ∀ a, heap.base ≤ a → σ'.mem a = σ.mem a) := by
  rcases pageAlloc_cases h size with hnone | ⟨⟨hsize, -⟩, j, hj, -, o, t', σ', ha, hq, hrep, hmem⟩
  · exact Or.inl hnone
  · have hc := (transPageSize_bounds hsize).1
    exact Or.inr ⟨hsize, _, _, σ', hq, hrep,
      ⟨given_update hj hc ha, fun C hC => apart_of_alloc hj hc ha hC⟩, hmem⟩

/-- `page_alloc` answers `NULL` exactly if the size is refused or no root reaches its class. -/
theorem pageAlloc_isNone_iff (h : σ.Represents heap T) {size : ℕ} :
    (∃ σ', pageAlloc size σ = some (none, σ')) ↔
      2 ^ 24 < size ∨ ∀ i < heap.units, (T i).summary P_4K < transPageSize size := by
  rcases pageAlloc_cases h size with ⟨hno, hnone⟩ | ⟨⟨hsize, i, hi, hge⟩, j, -, -, o, t', σ', -, hq, -⟩
  · exact ⟨fun _ => hno, fun _ => ⟨σ, hnone⟩⟩
  · constructor
    · rintro ⟨σ'', hnull⟩
      cases hnull.symm.trans hq
    · rintro (hbig | hlow)
      · exact absurd hbig hsize
      · exact absurd hge (Nat.not_le.2 (hlow i hi))

/-- `page_alloc` answers an address exactly if the size is not refused and some root reaches its
class. -/
theorem pageAlloc_isSome_iff (h : σ.Represents heap T) {size : ℕ} :
    (∃ q σ', pageAlloc size σ = some (some q, σ')) ↔
      ¬ 2 ^ 24 < size ∧ ∃ i < heap.units, transPageSize size ≤ (T i).summary P_4K := by
  rcases pageAlloc_cases h size with ⟨hno, hnone⟩ | ⟨hroom, j, -, -, o, t', σ', -, hq, -⟩
  · constructor
    · rintro ⟨q, σ', hq⟩
      cases hq.symm.trans hnone
    · rintro ⟨hsize, i, hi, hge⟩
      rcases hno with hbig | hlow
      · exact absurd hbig hsize
      · exact absurd hge (Nat.not_le.2 (hlow i hi))
  · exact ⟨fun _ => hroom, fun _ => ⟨_, σ', hq⟩⟩

/-! ## `page_free` -/

/-- On an address inside a unit `page_free` changes nothing. -/
theorem pageFree_eq (h : σ.Represents heap T) {i ptr : ℕ} (hi : i < heap.units)
    (hle : heap.unitAddr i ≤ ptr) (hlt : ptr < heap.unitAddr i + PHSICS_UNIT) :
    pageFree ptr σ = some σ := by
  have hbase : ptr - ptr % 2 ^ 24 = heap.unitAddr i := by
    rcases heap.dvd_unitAddr i with ⟨q, hq⟩
    simp only [PHSICS_UNIT] at hlt
    rw [sub_mod_eq, hq, Nat.mul_comm]
    congr 1
    omega
  have hnum : (heap.unitAddr i - heap.base) / 2 ^ 24 = i := by
    rw [Area.unitAddr, Nat.add_sub_cancel_left]
    exact Nat.mul_div_cancel _ (Nat.two_pow_pos 24)
  unfold pageFree
  simp only [P_16M, land_mask, hbase, h.layout.beginAllocAddr, hnum, h.layout.realPageNum]
  rw [if_neg (by omega), PageSys.lockPage_eq (h.locks i), Option.map_some]
  have hl : (σ.locked i).Layout heap :=
    ⟨h.layout.beginPageAddr, h.layout.beginAllocAddr, h.layout.realPageNum, h.layout.pagePool⟩
  have hpool : (σ.locked i).pagePool i = heap.treeAddr i := h.layout.pagePool i hi
  rw [hpool, freeSpaceInPage_of_lt, PageSys.unlockPage_locked (h.locks i)]
  have hroot := convert_root hl i
  simp only [P_16M] at hroot
  rw [hroot]
  exact hlt

/-- In particular on a block that was given out. -/
theorem pageFree_given (h : σ.Represents heap T) {B : Block} (hB : Given heap T B) :
    pageFree B.addr σ = some σ := by
  rcases hB.inside with ⟨i, hi, h1, h2⟩
  have := B.size_pos
  exact pageFree_eq h hi h1 (by omega)

end Represents

end OsLab
