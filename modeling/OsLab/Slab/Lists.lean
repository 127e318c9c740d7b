import OsLab.Slab.Layout
import OsLab.Page.Alloc

/-! # The slab lists in memory

`ListsInv heap T L F σ` ties the memory to what it stands for: the page trees
represent `T`, the list of CPU `cpu` and class index `k` visits the slabs
`L cpu k`, and the free list of a slab `S` on a list visits the blocks `F S`.

What an operation writes is confined to the page of one slab (`ChangesPage`), so
an operation is settled by what it leaves in that page (`ListsInv.modify`).
-/

namespace OsLab

open Buddy PtrList

/-! ## One slab -/

/-- The slab at `slab` is unlocked, has the labels `cpu` and `size`, and the blocks `free` on its
free list. -/
structure SlabOk (σ : SlabSys) (cpu size slab : ℕ) (free : List ℕ) : Prop where
  locked : σ.locked slab = 0
  cpuId : σ.cpuId slab = cpu
  type : σ.type slab = size
  blockNum : σ.blockNum slab = slabBlockNum size
  freeBlockNum : σ.freeBlockNum slab = free.length
  freeList : Chain σ.next (σ.freeList slab) free
  inside : ∀ a ∈ free, a ∈ slabBlocks slab size

/-- A slab depends only on its header (without the link) and on its free blocks. -/
theorem SlabOk.congr {σ σ' : SlabSys} {cpu size slab : ℕ} {free : List ℕ}
    (h : SlabOk σ cpu size slab free)
    (hhead : ∀ a, slab ≤ a → a < slab + 32 → σ'.mem a = σ.mem a)
    (hfree : ∀ a ∈ free, σ'.mem a = σ.mem a) : SlabOk σ' cpu size slab free where
  locked := (hhead _ (by omega) (by omega)).trans h.locked
  cpuId := (hhead _ (by omega) (by omega)).trans h.cpuId
  type := (hhead _ (by omega) (by omega)).trans h.type
  blockNum := (hhead _ (by omega) (by omega)).trans h.blockNum
  freeBlockNum := (hhead _ (by omega) (by omega)).trans h.freeBlockNum
  freeList := by
    have hp : σ'.freeList slab = σ.freeList slab :=
      SlabSys.ptr_congr (hhead _ (by omega) (by omega))
    rw [hp]
    exact h.freeList.congr fun a ha => SlabSys.ptr_congr (hfree a ha)
  inside := h.inside

/-- A slab whose free list was exchanged and whose lock is free. -/
theorem SlabOk.exchange {σ σ' : SlabSys} {cpu size slab : ℕ} {free free' : List ℕ}
    (h : SlabOk σ cpu size slab free) (hlocked : σ'.locked slab = 0)
    (hlabels : ∀ a, slab < a → a < slab + 16 → σ'.mem a = σ.mem a)
    (hnum : σ'.freeBlockNum slab = free'.length) (hlist : Chain σ'.next (σ'.freeList slab) free')
    (hin : ∀ a ∈ free', a ∈ slabBlocks slab size) : SlabOk σ' cpu size slab free' where
  locked := hlocked
  cpuId := (hlabels _ (by omega) (by omega)).trans h.cpuId
  type := (hlabels _ (by omega) (by omega)).trans h.type
  blockNum := (hlabels _ (by omega) (by omega)).trans h.blockNum
  freeBlockNum := hnum
  freeList := hlist
  inside := hin

/-! ## All lists -/

/-- The memory `σ` stands for the trees `T`, the slab lists `L` and the free lists `F`. -/
structure ListsInv (heap : Area) (T : ℕ → BuddyTree 12) (L : ℕ → ℕ → List ℕ) (F : ℕ → List ℕ)
    (σ : SlabSys) : Prop where
  rep : σ.page.Represents heap T
  chain : ∀ cpu k, Chain σ.append (σ.slabsOfCpu cpu k) (L cpu k)
  slab : ∀ cpu k, ∀ S ∈ L cpu k, SlabOk σ cpu (k + S_8B) S (F S)
  class_lt : ∀ cpu k, ∀ S ∈ L cpu k, k + S_8B < S_REFUSE
  given : ∀ cpu k, ∀ S ∈ L cpu k, Given heap T ⟨S, 12⟩

/-- What a step writes lies in the page at `slab`; the globals stay as they are. -/
structure ChangesPage (slab : ℕ) (σ σ' : SlabSys) : Prop where
  page : σ.page.OnlyMem σ'.page
  lists : σ'.slabsOfCpu = σ.slabsOfCpu
  out : ∀ a, a < slab ∨ slab + 2 ^ 12 ≤ a → σ'.mem a = σ.mem a

namespace ChangesPage

variable {slab : ℕ} {σ σ' : SlabSys}

theorem refl (slab : ℕ) (σ : SlabSys) : ChangesPage slab σ σ := ⟨.refl _, rfl, fun _ _ => rfl⟩

theorem setMem (h : ChangesPage slab σ σ') {a : ℕ} (v : ℕ) (h1 : slab ≤ a)
    (h2 : a < slab + 2 ^ 12) : ChangesPage slab σ (σ'.setMem a v) where
  page := h.page.setMem a v
  lists := h.lists
  out b hb := by
    rw [SlabSys.mem_setMem_ne (by omega)]
    exact h.out b hb

end ChangesPage

/-- The trees do not mind what is written behind them. -/
theorem PageSys.Represents.congr {heap : Area} {T : ℕ → BuddyTree 12} {σ σ' : PageSys}
    (h : σ.Represents heap T) (hpage : σ.OnlyMem σ')
    (hmem : ∀ a < heap.base, σ'.mem a = σ.mem a) : σ'.Represents heap T := by
  have hl := h.layout
  rcases hpage with ⟨m, rfl⟩
  refine ⟨⟨hl.beginPageAddr, hl.beginAllocAddr, hl.realPageNum, hl.pagePool⟩, h.locks,
    fun i hi => (h.rep i hi).congr atHeight_root fun j _ hj => hmem _ ?_, h.proper⟩
  have := heap.treeAddr_lt hi
  simp only [MAX_PAGE_SIZE] at this
  omega

section ListsInv

variable {heap : Area} {T : ℕ → BuddyTree 12} {L : ℕ → ℕ → List ℕ} {F : ℕ → List ℕ}
  {σ σ' : SlabSys} {cpu cpu' k k' S S' : ℕ}

theorem ListsInv.dvd (h : ListsInv heap T L F σ) (hS : S ∈ L cpu k) : 2 ^ 12 ∣ S :=
  (h.given cpu k S hS).aligned

theorem ListsInv.base_le (h : ListsInv heap T L F σ) (hS : S ∈ L cpu k) : heap.base ≤ S :=
  (h.given cpu k S hS).base_le

theorem Area.base_pos (heap : Area) : 0 < heap.base := by
  have := heap.alignPtr_pos
  unfold base
  omega

theorem ListsInv.ne_zero (h : ListsInv heap T L F σ) (hS : S ∈ L cpu k) : S ≠ 0 := by
  have h1 := h.base_le hS
  have h2 := heap.base_pos
  omega

/-- The labels of a slab say which list it is on. -/
theorem ListsInv.unique (h : ListsInv heap T L F σ) (hS : S ∈ L cpu k) (hS' : S ∈ L cpu' k') :
    cpu = cpu' ∧ k = k' := by
  have h1 := h.slab cpu k S hS
  have h2 := h.slab cpu' k' S hS'
  have h3 := h1.type.symm.trans h2.type
  exact ⟨h1.cpuId.symm.trans h2.cpuId, by omega⟩

theorem ListsInv.free_bounds (h : ListsInv heap T L F σ) (hS : S ∈ L cpu k) {a : ℕ}
    (ha : a ∈ F S) : S + 64 ≤ a ∧ a < S + 2 ^ 12 := by
  have hpos := Nat.two_pow_pos (k + S_8B)
  have hb := slabBlocks_bounds (Nat.le_add_left _ _) (h.class_lt cpu k S hS)
    ((h.slab cpu k S hS).inside a ha)
  omega

/-- Another slab is not touched by a change of the page at `S`. -/
theorem ListsInv.slab_of_ne (h : ListsInv heap T L F σ) (hd : 2 ^ 12 ∣ S)
    (hch : ∀ a, a < S ∨ S + 2 ^ 12 ≤ a → σ'.mem a = σ.mem a) (hS' : S' ∈ L cpu' k')
    (hne : S' ≠ S) :
    SlabOk σ' cpu' (k' + S_8B) S' (F S') ∧ σ'.append S' = σ.append S' := by
  have hp := apart_pages (h.dvd hS') hd hne
  refine ⟨(h.slab cpu' k' S' hS').congr (fun a h1 h2 => hch a (by omega)) fun a ha => ?_,
    SlabSys.ptr_congr (hch _ (by omega))⟩
  have := h.free_bounds hS' ha
  exact hch a (by omega)

/-- Only the page of the slab `S` is changed, its link is kept, and its free list is `free` now. -/
theorem ListsInv.modify (h : ListsInv heap T L F σ) (hS : S ∈ L cpu k) {free : List ℕ}
    (hch : ChangesPage S σ σ') (happ : σ'.append S = σ.append S)
    (hok : SlabOk σ' cpu (k + S_8B) S free) :
    ListsInv heap T L (Function.update F S free) σ' := by
  have hbase := h.base_le hS
  have hother := fun {c j S'} (hS' : S' ∈ L c j) => h.slab_of_ne (h.dvd hS) hch.out hS'
  refine ⟨h.rep.congr hch.page fun a ha => hch.out a (by omega), ?_, ?_, h.class_lt, h.given⟩
  · intro c j
    rw [hch.lists]
    refine (h.chain c j).congr fun S' hS' => ?_
    by_cases hne : S' = S
    · rw [hne, happ]
    · exact (hother hS' hne).2
  · intro c j S' hS'
    by_cases hne : S' = S
    · subst hne
      rcases h.unique hS hS' with ⟨rfl, rfl⟩
      rwa [Function.update_self]
    · rw [Function.update_of_ne hne]
      exact (hother hS' hne).1

/-- Trees, headers and free blocks are as they were. -/
theorem ListsInv.frame (h : ListsInv heap T L F σ)
    (hpage : σ.page.OnlyMem σ'.page) (hlists : σ'.slabsOfCpu = σ.slabsOfCpu)
    (htree : ∀ a < heap.base, σ'.mem a = σ.mem a)
    (hhead : ∀ cpu k, ∀ S ∈ L cpu k, ∀ a, S ≤ a → a < S + sizeofSlab → σ'.mem a = σ.mem a)
    (hfree : ∀ cpu k, ∀ S ∈ L cpu k, ∀ a ∈ F S, σ'.mem a = σ.mem a) :
    ListsInv heap T L F σ' := by
  unfold sizeofSlab at hhead
  refine ⟨h.rep.congr hpage htree, ?_, ?_, h.class_lt, h.given⟩
  · intro c j
    rw [hlists]
    refine (h.chain c j).congr fun S hS => SlabSys.ptr_congr ?_
    exact hhead c j S hS _ (by omega) (by omega)
  · intro c j S hS
    refine (h.slab c j S hS).congr (fun a h1 h2 => ?_) (hfree c j S hS)
    exact hhead c j S hS a h1 (by omega)

/-- `page_alloc` has given out one more block. -/
theorem ListsInv.grant (h : ListsInv heap T L F σ) {T' : ℕ → BuddyTree 12} {p : PageSys}
    (hrep : p.Represents heap T') (hmem : ∀ a, heap.base ≤ a → p.mem a = σ.mem a)
    (hgiven : ∀ B, Given heap T B → Given heap T' B) :
    ListsInv heap T' L F { σ with page := p } := by
  refine ⟨hrep, ?_, ?_, h.class_lt, fun c j S hS => hgiven _ (h.given c j S hS)⟩
  · intro c j
    refine (h.chain c j).congr fun S hS => SlabSys.ptr_congr (hmem _ ?_)
    have := h.base_le hS
    omega
  · intro c j S hS
    have hle := h.base_le hS
    refine (h.slab c j S hS).congr (fun a h1 _ => hmem a (by omega)) fun a ha => hmem a ?_
    have := h.free_bounds hS ha
    omega

/-! ### Changes of one list -/

/-- `L` with the list of `cpu` and `k` replaced. -/
def setList (L : ℕ → ℕ → List ℕ) (cpu k : ℕ) (l : List ℕ) : ℕ → ℕ → List ℕ :=
  fun c j => if c = cpu ∧ j = k then l else L c j

@[simp] theorem setList_self {l : List ℕ} : setList L cpu k l cpu k = l := if_pos ⟨rfl, rfl⟩

theorem setList_of_ne {l : List ℕ} {c j : ℕ} (h : ¬ (c = cpu ∧ j = k)) :
    setList L cpu k l c j = L c j := if_neg h

theorem mem_setList_cons {c j R : ℕ} :
    R ∈ setList L cpu k (S :: L cpu k) c j ↔ (R = S ∧ c = cpu ∧ j = k) ∨ R ∈ L c j := by
  by_cases hcj : c = cpu ∧ j = k
  · rcases hcj with ⟨rfl, rfl⟩
    simp
  · simp [setList_of_ne hcj, hcj]

/-- What is on a list without the slab `S`, which is on one list only. -/
theorem mem_setList_unlink {pre suf : List ℕ} {Q : ℕ} (hl : L cpu k = pre ++ Q :: S :: suf)
    (hnd : (L cpu k).Nodup) (huniq : ∀ {c j}, S ∈ L c j → c = cpu ∧ j = k) {c j R : ℕ} :
    R ∈ setList L cpu k (pre ++ Q :: suf) c j ↔ R ∈ L c j ∧ R ≠ S := by
  by_cases hcj : c = cpu ∧ j = k
  · rcases hcj with ⟨rfl, rfl⟩
    rw [setList_self, hl]
    rw [hl] at hnd
    have hnd' := hnd.perm (List.perm_append_comm_assoc pre [Q, S] suf)
    simp only [List.cons_append, List.nil_append, List.nodup_cons, List.mem_cons, List.mem_append]
      at hnd' ⊢
    constructor
    · intro hR
      refine ⟨by tauto, ?_⟩
      rintro rfl
      tauto
    · tauto
  · rw [setList_of_ne hcj]
    exact ⟨fun hR => ⟨hR, fun he => hcj (huniq (he ▸ hR))⟩, And.left⟩

theorem slabsOfCpu_setSlabsOfCpu (σ : SlabSys) (cpu k : ℕ) (p : Option ℕ) (c j : ℕ) :
    (σ.setSlabsOfCpu cpu k p).slabsOfCpu c j =
      if c = cpu ∧ j = k then p else σ.slabsOfCpu c j := by
  unfold SlabSys.setSlabsOfCpu
  by_cases hc : c = cpu
  · subst hc
    simp only [Function.update_self, Function.update_apply, true_and]
  · simp only [Function.update_of_ne hc, hc, false_and, if_false]

/-- A new slab `S` in front of a list. -/
theorem ListsInv.push (h : ListsInv heap T L F σ) {free : List ℕ} (hk : k + S_8B < S_REFUSE)
    (hS : Given heap T ⟨S, 12⟩) (hnew : ∀ c j, S ∉ L c j)
    (hpage : σ.page.OnlyMem σ'.page)
    (hlists : σ'.slabsOfCpu = (σ.setSlabsOfCpu cpu k (some S)).slabsOfCpu)
    (hout : ∀ a, a < S ∨ S + 2 ^ 12 ≤ a → σ'.mem a = σ.mem a)
    (happ : σ'.append S = σ.slabsOfCpu cpu k) (hok : SlabOk σ' cpu (k + S_8B) S free) :
    ListsInv heap T (setList L cpu k (S :: L cpu k)) (Function.update F S free) σ' := by
  have hbase := hS.base_le
  simp only at hbase
  have hne : ∀ {c j S'}, S' ∈ L c j → S' ≠ S := fun hS' he => hnew _ _ (he ▸ hS')
  have hother := fun {c j S'} (hS' : S' ∈ L c j) => h.slab_of_ne hS.aligned hout hS' (hne hS')
  refine ⟨h.rep.congr hpage fun a ha => hout a (by omega), ?_, ?_, ?_, ?_⟩
  · intro c j
    have hold : Chain σ'.append (σ.slabsOfCpu c j) (L c j) :=
      (h.chain c j).congr fun S' hS' => (hother hS').2
    rw [hlists, slabsOfCpu_setSlabsOfCpu]
    by_cases hcj : c = cpu ∧ j = k
    · rcases hcj with ⟨rfl, rfl⟩
      rw [if_pos ⟨rfl, rfl⟩, setList_self]
      exact .cons (happ ▸ hold)
    · rw [if_neg hcj, setList_of_ne hcj]
      exact hold
  · intro c j S' hS'
    rcases mem_setList_cons.1 hS' with ⟨rfl, rfl, rfl⟩ | hS'
    · rwa [Function.update_self]
    · rw [Function.update_of_ne (hne hS')]
      exact (hother hS').1
  · intro c j S' hS'
    rcases mem_setList_cons.1 hS' with ⟨-, -, rfl⟩ | hS'
    · exact hk
    · exact h.class_lt c j S' hS'
  · intro c j S' hS'
    rcases mem_setList_cons.1 hS' with ⟨rfl, -, -⟩ | hS'
    · exact hS
    · exact h.given c j S' hS'

/-- What is on a list without the slab `S`. -/
theorem ListsInv.mem_unlink (h : ListsInv heap T L F σ) {pre suf : List ℕ} {Q : ℕ}
    (hl : L cpu k = pre ++ Q :: S :: suf) {c j R : ℕ} :
    R ∈ setList L cpu k (pre ++ Q :: suf) c j ↔ R ∈ L c j ∧ R ≠ S :=
  mem_setList_unlink hl (h.chain cpu k).nodup fun hS => h.unique hS (by simp [hl])

/-- The slab `S` behind `Q` is unlinked. -/
theorem ListsInv.unlink (h : ListsInv heap T L F σ) {pre suf : List ℕ} {Q : ℕ}
    (hl : L cpu k = pre ++ Q :: S :: suf)
    (hpage : σ.page.OnlyMem σ'.page) (hlists : σ'.slabsOfCpu = σ.slabsOfCpu)
    (hout : ∀ a, (a < S ∨ S + 2 ^ 12 ≤ a) → a ≠ Q + 32 → σ'.mem a = σ.mem a)
    (happ : σ'.append Q = σ.append S) :
    ListsInv heap T (setList L cpu k (pre ++ Q :: suf)) F σ' := by
  have hS : S ∈ L cpu k := by simp [hl]
  have hQ : Q ∈ L cpu k := by simp [hl]
  have hd := h.dvd hS
  have hQd := h.dvd hQ
  have hbaseS := h.base_le hS
  have hbaseQ := h.base_le hQ
  have hcases : ∀ {c j S'}, S' ∈ setList L cpu k (pre ++ Q :: suf) c j → S' ∈ L c j ∧ S' ≠ S :=
    (h.mem_unlink hl).1
  -- the link of `Q` apart, the other slabs are as they were
  have happ' : ∀ {c j S'}, S' ∈ L c j → S' ≠ S → S' ≠ Q → σ'.append S' = σ.append S' := by
    intro c j S' hS' hne hneQ
    have h1 := apart_pages (h.dvd hS') hd hne
    exact SlabSys.ptr_congr (hout _ (by omega) (by omega))
  refine ⟨h.rep.congr hpage fun a ha => hout a (by omega) (by omega), ?_, ?_, ?_, ?_⟩
  · intro c j
    rw [hlists]
    by_cases hcj : c = cpu ∧ j = k
    · rcases hcj with ⟨rfl, rfl⟩
      have hch := h.chain c j
      rw [hl] at hch
      refine setList_self (L := L) ▸ hch.unlink.congr fun S' hS' => ?_
      have hmem := hcases (c := c) (j := j) (by rwa [setList_self])
      by_cases hneQ : S' = Q
      · rw [hneQ, Function.update_self, happ]
      · rw [Function.update_of_ne hneQ]
        exact happ' hmem.1 hmem.2 hneQ
    · rw [setList_of_ne hcj]
      refine (h.chain c j).congr fun S' hS' => happ' hS' ?_ ?_
      · exact fun he => hcj (h.unique (he ▸ hS') hS)
      · exact fun he => hcj (h.unique (he ▸ hS') hQ)
  · intro c j S' hS'
    rcases hcases hS' with ⟨hS', hne⟩
    have hd' := h.dvd hS'
    refine (h.slab c j S' hS').congr (fun a h2 h3 => hout a (by omega) (by omega)) fun a ha => ?_
    have hb := h.free_bounds hS' ha
    exact hout a (by omega) (by omega)
  · exact fun c j S' hS' => h.class_lt c j S' (hcases hS').1
  · exact fun c j S' hS' => h.given c j S' (hcases hS').1

end ListsInv

end OsLab
