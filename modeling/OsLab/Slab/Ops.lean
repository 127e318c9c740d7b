import OsLab.Slab.Lists

/-! # What the operations of `slab.c` do to the lists

One specification for each operation, on a memory with `ListsInv`:

* `findSlab_spec`, `findPrev_spec`: the two loops over a list;
* `takeBlock_spec`: the first free block of a slab is given out;
* `slabInit_spec`: a new slab with all its blocks free in front of a list;
* `slabFree_spec`: a block goes back, and a slab that is not the head and has all blocks free
  is unlinked.

A loop has enough fuel as soon as it has more than the list has slabs.
-/

namespace OsLab

open Buddy PtrList

section Ops

variable {heap : Area} {T : ℕ → BuddyTree 12} {L : ℕ → ℕ → List ℕ} {F : ℕ → List ℕ}
  {σ : SlabSys} {cpu k S : ℕ}

/-! ## The search for a slab with a free block -/

theorem SlabOk.lockSlab {size : ℕ} {free : List ℕ} (h : SlabOk σ cpu size S free) :
    σ.lockSlab S = some (σ.setLocked S 1) := by
  unfold SlabSys.lockSlab lock
  rw [h.locked]
  rfl

theorem SlabOk.unlock_locked {size : ℕ} {free : List ℕ} (h : SlabOk σ cpu size S free) :
    (σ.setLocked S 1).unlockSlab S = σ := by
  unfold SlabSys.unlockSlab SlabSys.setLocked
  rw [SlabSys.setMem_setMem]
  exact SlabSys.setMem_mem_self h.locked

/-- From a slab `S` on, whose lock is held, the search stops at a slab with a free block and holds
its lock, or finds all slabs used up and holds none. -/
theorem findSlab_spec (h : ListsInv heap T L F σ) {pre suf : List ℕ}
    (hl : L cpu k = pre ++ S :: suf) (fuel : ℕ) :
    (findSlab fuel S (σ.setLocked S 1) = none ∧ fuel ≤ suf.length) ∨
    ((∀ Q ∈ S :: suf, F Q = []) ∧ findSlab fuel S (σ.setLocked S 1) = some (none, σ)) ∨
    (∃ Q ∈ S :: suf, F Q ≠ [] ∧
      findSlab fuel S (σ.setLocked S 1) = some (some Q, σ.setLocked Q 1)) := by
  induction suf generalizing pre S fuel with
  | nil =>
      cases fuel with
      | zero => exact Or.inl ⟨rfl, Nat.le_refl 0⟩
      | succ fuel =>
          right
          have hS : S ∈ L cpu k := by simp [hl]
          have hok := h.slab cpu k S hS
          have hnum : (σ.setLocked S 1).freeBlockNum S = (F S).length :=
            (SlabSys.mem_setMem_ne (by omega)).trans hok.freeBlockNum
          have happ : (σ.setLocked S 1).append S = none := by
            refine (SlabSys.ptr_congr (SlabSys.mem_setMem_ne (by omega))).trans ?_
            exact chain_nil.1 (hl ▸ h.chain cpu k).next_of_append
          rw [findSlab, hnum]
          by_cases hF : F S = []
          · left
            refine ⟨by simpa using hF, ?_⟩
            rw [if_neg (by simp [hF]), happ]
            exact congrArg (fun τ => some (none, τ)) hok.unlock_locked
          · right
            refine ⟨S, List.mem_cons_self, hF, if_pos (List.length_pos_iff.2 hF)⟩
  | cons Q suf ih =>
      cases fuel with
      | zero => exact Or.inl ⟨rfl, Nat.zero_le _⟩
      | succ fuel =>
          have hS : S ∈ L cpu k := by simp [hl]
          have hQ : Q ∈ L cpu k := by simp [hl]
          have hok := h.slab cpu k S hS
          have hokQ := h.slab cpu k Q hQ
          have hd := h.dvd hS
          have hdQ := h.dvd hQ
          have hne : Q ≠ S := by
            have hnd := (h.chain cpu k).nodup
            rw [hl] at hnd
            simp only [List.nodup_append, List.nodup_cons, List.mem_cons] at hnd
            exact fun he => hnd.2.1.1 (Or.inl he.symm)
          have hnum : (σ.setLocked S 1).freeBlockNum S = (F S).length :=
            (SlabSys.mem_setMem_ne (by omega)).trans hok.freeBlockNum
          have happS : σ.append S = some Q := by
            have hch := (hl ▸ h.chain cpu k).next_of_append
            exact (chain_cons.1 hch).1
          have happ : (σ.setLocked S 1).append S = some Q :=
            (SlabSys.ptr_congr (SlabSys.mem_setMem_ne (by omega))).trans happS
          -- the next slab is locked before this one is released
          have hlock : (σ.setLocked S 1).lockSlab Q = some ((σ.setLocked S 1).setLocked Q 1) := by
            have hlockedQ : (σ.setLocked S 1).locked Q = 0 :=
              (SlabSys.mem_setMem_ne hne).trans hokQ.locked
            unfold SlabSys.lockSlab lock
            rw [hlockedQ]
            rfl
          have hunlock : ((σ.setLocked S 1).setLocked Q 1).unlockSlab S = σ.setLocked Q 1 := by
            have hcomm : (σ.setLocked S 1).setLocked Q 1 = (σ.setLocked Q 1).setLocked S 1 :=
              SlabSys.setMem_comm (Ne.symm hne)
            have hlockedS : (σ.setLocked Q 1).locked S = 0 :=
              (SlabSys.mem_setMem_ne (Ne.symm hne)).trans hok.locked
            rw [hcomm]
            unfold SlabSys.unlockSlab SlabSys.setLocked
            rw [SlabSys.setMem_setMem]
            exact SlabSys.setMem_mem_self hlockedS
          have happ' : (σ.setLocked Q 1).append S = some Q :=
            (SlabSys.ptr_congr (SlabSys.mem_setMem_ne (by omega))).trans happS
          rw [findSlab, hnum]
          by_cases hF : F S = []
          · rw [if_neg (by simp [hF]), happ]
            simp only [hlock, Option.bind_some, hunlock, happ']
            have hl' : L cpu k = (pre ++ [S]) ++ Q :: suf := by simp [hl]
            rcases ih hl' fuel with hnone | ⟨hall, heq⟩ | ⟨R, hR, hrest⟩
            · exact Or.inl ⟨hnone.1, by simpa using hnone.2⟩
            · refine Or.inr (Or.inl ⟨fun R hR => ?_, heq⟩)
              rcases List.mem_cons.1 hR with rfl | hR
              · exact hF
              · exact hall R hR
            · exact Or.inr (Or.inr ⟨R, List.mem_cons_of_mem _ hR, hrest⟩)
          · refine Or.inr (Or.inr ⟨S, List.mem_cons_self, hF, ?_⟩)
            exact if_pos (List.length_pos_iff.2 hF)

/-- The same from the head of the list. -/
theorem searchSlabs_spec (h : ListsInv heap T L F σ) (fuel cpu k : ℕ) :
    (searchSlabs fuel cpu (k + S_8B) σ = none ∧ fuel < (L cpu k).length) ∨
    ((∀ Q ∈ L cpu k, F Q = []) ∧ searchSlabs fuel cpu (k + S_8B) σ = some (none, σ)) ∨
    (∃ Q ∈ L cpu k, F Q ≠ [] ∧
      searchSlabs fuel cpu (k + S_8B) σ = some (some Q, σ.setLocked Q 1)) := by
  have hk : k + S_8B - SLAB_SIZE_OFFSET = k := by simp [S_8B, SLAB_SIZE_OFFSET]
  have hch := h.chain cpu k
  unfold searchSlabs
  rw [hk]
  cases hl : L cpu k with
  | nil =>
      rw [hl, chain_nil] at hch
      rw [hch]
      exact Or.inr (Or.inl ⟨by simp, rfl⟩)
  | cons S suf =>
      rw [hl] at hch
      have hok := h.slab cpu k S (by simp [hl])
      rw [(chain_cons.1 hch).1]
      simp only [hok.lockSlab, Option.bind_some]
      rcases findSlab_spec h (show L cpu k = [] ++ S :: suf from hl) fuel with ⟨hnone, hle⟩ | hrest
      · exact Or.inl ⟨hnone, by simpa using Nat.lt_succ_of_le hle⟩
      · exact Or.inr hrest

/-! ## The search for the slab in front -/

theorem findPrev_spec {slab : ℕ} {l : List ℕ} {P : ℕ} (h : Chain σ.append (some P) (P :: l))
    (hs : slab ∈ l) (fuel : ℕ) :
    (findPrev slab fuel P σ = none ∧ fuel ≤ l.length) ∨
    ∃ pre Q suf, P :: l = pre ++ Q :: slab :: suf ∧ findPrev slab fuel P σ = some (some Q) := by
  induction l generalizing P fuel with
  | nil => cases hs
  | cons R l ih =>
      cases fuel with
      | zero => exact Or.inl ⟨rfl, Nat.zero_le _⟩
      | succ fuel =>
          rcases chain_cons.1 h with ⟨-, hch⟩
          have happ := (chain_cons.1 hch).1
          rw [findPrev, happ]
          by_cases hR : R = slab
          · subst hR
            exact Or.inr ⟨[], P, l, rfl, if_pos rfl⟩
          · have hs' : slab ∈ l := by
              rcases List.mem_cons.1 hs with he | hs
              · exact absurd he.symm hR
              · exact hs
            simp only [if_neg hR]
            rcases ih (happ ▸ hch) hs' fuel with ⟨hnone, hle⟩ | ⟨pre, Q, suf, hl, heq⟩
            · exact Or.inl ⟨hnone, by simpa using hle⟩
            · exact Or.inr ⟨P :: pre, Q, suf, by rw [hl]; rfl, heq⟩

/-! ## Giving out a block -/

theorem isAligned_of_free (h : ListsInv heap T L F σ) (hS : S ∈ L cpu k) {a : ℕ} (ha : a ∈ F S) :
    IsAligned a (k + S_8B) :=
  isAligned_iff.2 (dvd_of_mem_slabBlocks (Nat.le_add_left _ _) (h.class_lt cpu k S hS) (h.dvd hS)
    ((h.slab cpu k S hS).inside a ha))

/-- From a slab whose lock is held the first free block is given out. -/
theorem takeBlock_spec (h : ListsInv heap T L F σ) (hS : S ∈ L cpu k) {a : ℕ} {rest : List ℕ}
    (hF : F S = a :: rest) :
    ∃ σ', takeBlock (k + S_8B) (some S, σ.setLocked S 1) = some (some a, σ') ∧
      ListsInv heap T L (Function.update F S rest) σ' := by
  have hok := h.slab cpu k S hS
  have hin : ∀ b ∈ F S, S + 64 ≤ b ∧ b < S + 2 ^ 12 := fun b hb => h.free_bounds hS hb
  have hlist := hok.freeList
  rw [hF] at hin hlist
  have ha := hin a List.mem_cons_self
  rcases chain_cons.1 hlist with ⟨hhead, hrest⟩
  have hnum : (σ.setLocked S 1).freeBlockNum S = rest.length + 1 := by
    refine (SlabSys.mem_setMem_ne (by omega)).trans (hok.freeBlockNum.trans ?_)
    rw [hF, List.length_cons]
  have hfree : (σ.setLocked S 1).freeList S = some a :=
    (SlabSys.ptr_congr (SlabSys.mem_setMem_ne (by omega))).trans hhead
  have hnext : (σ.setLocked S 1).next a = σ.next a :=
    SlabSys.ptr_congr (SlabSys.mem_setMem_ne (by omega))
  -- the state with the block taken off the list
  let σ₁ := (σ.setLocked S 1).setFreeList S (σ.next a)
  let σ' := (σ₁.setFreeBlockNum S rest.length).unlockSlab S
  refine ⟨σ', ?_, ?_⟩
  · have hnum₁ : σ₁.freeBlockNum S = rest.length + 1 :=
      (SlabSys.mem_setMem_ne (by omega)).trans hnum
    have halign := isAligned_of_free h hS (hF ▸ List.mem_cons_self : a ∈ F S)
    simp only [takeBlock, allocBlockFromSlab, hnum, hfree, Option.map_some, hnext]
    rw [if_neg (by omega), Option.map_some, Option.getD_some, if_pos halign, hnum₁,
      Nat.add_sub_cancel]
  · have hmem : ∀ b, b ≠ S → b ≠ S + 16 → b ≠ S + 24 → σ'.mem b = σ.mem b := by
      intro b h1 h2 h3
      refine (SlabSys.mem_setMem_ne h1).trans ((SlabSys.mem_setMem_ne h3).trans ?_)
      exact (SlabSys.mem_setMem_ne h2).trans (SlabSys.mem_setMem_ne h1)
    have hch : ChangesPage S σ σ' :=
      ((((ChangesPage.refl S σ).setMem _ (by omega) (by omega)).setMem _ (by omega) (by omega)).setMem
        _ (by omega) (by omega)).setMem _ (by omega) (by omega)
    refine h.modify hS hch (SlabSys.ptr_congr (hmem _ (by omega) (by omega) (by omega))) ?_
    refine hok.exchange SlabSys.mem_setMem_self (fun b _ _ => hmem b (by omega) (by omega) (by omega))
      ((SlabSys.mem_setMem_ne (by omega)).trans SlabSys.mem_setMem_self) ?_ ?_
    · have hp : σ'.freeList S = σ.next a := by
        refine SlabSys.ptr_eq_of_mem ?_ (SlabSys.ptr_ne_some_zero σ a)
        refine (SlabSys.mem_setMem_ne (by omega)).trans ((SlabSys.mem_setMem_ne (by omega)).trans ?_)
        exact SlabSys.mem_setMem_self
      rw [hp]
      refine hrest.congr fun b hb => SlabSys.ptr_congr ?_
      have := hin b (List.mem_cons_of_mem _ hb)
      exact hmem b (by omega) (by omega) (by omega)
    · intro b hb
      exact hok.inside b (hF ▸ List.mem_cons_of_mem _ hb)

/-! ## A new slab -/

/-- The blocks from `blockAddr` on are pushed one after the other. -/
theorem formatBlocks_spec (slab size count : ℕ) {blockAddr : ℕ} {l : List ℕ}
    (hlow : slab + 64 ≤ blockAddr) (hl : Chain σ.next (σ.freeList slab) l)
    (hin : ∀ b ∈ l, slab + 64 ≤ b ∧ b < blockAddr) :
    let σ' := formatBlocks slab size count blockAddr σ
    σ.page.OnlyMem σ'.page ∧ σ'.slabsOfCpu = σ.slabsOfCpu ∧
    (∀ a, a ≠ slab + 16 → a < blockAddr ∨ blockAddr + count * 2 ^ size ≤ a → σ'.mem a = σ.mem a) ∧
    Chain σ'.next (σ'.freeList slab)
      (((List.range count).map fun i => blockAddr + i * 2 ^ size).reverse ++ l) := by
  induction count generalizing blockAddr σ l with
  | zero => exact ⟨.refl _, rfl, fun _ _ _ => rfl, hl⟩
  | succ count ih =>
      let σ₁ := (σ.setNext blockAddr (σ.freeList slab)).setFreeList slab (some blockAddr)
      have hpos := Nat.two_pow_pos size
      have hmem : ∀ a, a ≠ slab + 16 → a ≠ blockAddr → σ₁.mem a = σ.mem a := fun a h1 h2 =>
        (SlabSys.mem_setMem_ne h1).trans (SlabSys.mem_setMem_ne h2)
      have hhead : σ₁.freeList slab = some blockAddr :=
        SlabSys.ptr_setPtr_self (by simp only [ne_eq, Option.some.injEq]; omega)
      have hnext : σ₁.next blockAddr = σ.freeList slab := by
        refine (SlabSys.ptr_congr (SlabSys.mem_setMem_ne (by omega))).trans ?_
        exact SlabSys.ptr_setPtr_self (SlabSys.ptr_ne_some_zero _ _)
      have hl₁ : Chain σ₁.next (σ₁.freeList slab) (blockAddr :: l) := by
        rw [hhead]
        refine .cons (hnext ▸ hl.congr fun b hb => SlabSys.ptr_congr ?_)
        have := hin b hb
        exact hmem b (by omega) (by omega)
      have hin₁ : ∀ b ∈ blockAddr :: l, slab + 64 ≤ b ∧ b < blockAddr + 2 ^ size := by
        intro b hb
        rcases List.mem_cons.1 hb with rfl | hb
        · omega
        · have := hin b hb
          omega
      obtain ⟨hpage, hlists, hout, hchain⟩ := ih (σ := σ₁) (by omega) hl₁ hin₁
      have hpage₁ : σ.page.OnlyMem σ₁.page := ((PageSys.OnlyMem.refl _).setMem _ _).setMem _ _
      refine ⟨hpage₁.trans hpage, hlists, fun a h1 h2 => ?_, ?_⟩
      · rw [Nat.succ_mul] at h2
        exact (hout a h1 (by omega)).trans (hmem a h1 (by omega))
      · have hlist : ((List.range (count + 1)).map fun i => blockAddr + i * 2 ^ size).reverse ++ l =
            ((List.range count).map fun i => blockAddr + 2 ^ size + i * 2 ^ size).reverse ++
              blockAddr :: l := by
          rw [List.range_succ_eq_map, List.map_cons, List.map_map, List.reverse_cons,
            List.append_assoc, Nat.zero_mul, Nat.add_zero]
          congr 3
          funext i
          simp only [Function.comp_apply, Nat.succ_mul]
          omega
        rw [hlist]
        exact hchain

/-- The header `slab_init` writes before it goes through the blocks. -/
def slabHeader (cpu size slab : ℕ) (σ : SlabSys) : SlabSys :=
  let σ := ((σ.setLocked slab spinLockInit).setCpuId slab cpu).setType slab size
  let σ := (σ.setFreeList slab none).setBlockNum slab (slabBlockNum size)
  σ.setFreeBlockNum slab (slabBlockNum size)

theorem slabHeader_mem (cpu size slab : ℕ) (σ : SlabSys) (a : ℕ) :
    (slabHeader cpu size slab σ).mem a =
      if a = slab + 24 then slabBlockNum size
      else if a = slab + 8 then slabBlockNum size
      else if a = slab + 16 then 0
      else if a = slab + 12 then size
      else if a = slab + 4 then cpu
      else if a = slab then 0
      else σ.mem a := by
  simp only [slabHeader, SlabSys.setFreeBlockNum, SlabSys.setBlockNum, SlabSys.setFreeList,
    SlabSys.setType, SlabSys.setCpuId, SlabSys.setLocked, SlabSys.setPtr, SlabSys.mem_setMem,
    Option.getD_none, spinLockInit]

theorem slabHeader_page (cpu size slab : ℕ) (σ : SlabSys) :
    σ.page.OnlyMem (slabHeader cpu size slab σ).page :=
  ((((((PageSys.OnlyMem.refl _).setMem _ _).setMem _ _).setMem _ _).setMem _ _).setMem
    _ _).setMem _ _

theorem slabHeader_slabsOfCpu (cpu size slab : ℕ) (σ : SlabSys) :
    (slabHeader cpu size slab σ).slabsOfCpu = σ.slabsOfCpu := by
  simp only [slabHeader, SlabSys.setFreeBlockNum, SlabSys.setBlockNum, SlabSys.setFreeList,
    SlabSys.setType, SlabSys.setCpuId, SlabSys.setLocked, SlabSys.setPtr,
    SlabSys.slabsOfCpu_setMem]

theorem formatSlab_eq (cpu size slab : ℕ) (σ : SlabSys) :
    formatSlab cpu size slab σ =
      let σ₂ := formatBlocks slab size (slabBlockNum size) (slab + slabOcupy size)
        (slabHeader cpu size slab σ)
      (σ₂.setAppend slab (σ₂.slabsOfCpu cpu (size - SLAB_SIZE_OFFSET))).setSlabsOfCpu cpu
        (size - SLAB_SIZE_OFFSET) (some slab) := by
  have h1 : ∀ (τ : SlabSys) v, (τ.setBlockNum slab v).blockNum slab = v := fun τ v =>
    SlabSys.mem_setMem_self
  have h2 : ∀ (τ : SlabSys) v, (τ.setFreeBlockNum slab v).freeBlockNum slab = v := fun τ v =>
    SlabSys.mem_setMem_self
  simp only [formatSlab, h1, h2, slabHeader, slabBlockNum]

/-- `slab_init` past its checks: all blocks are free, and the slab is linked to the old head. -/
theorem formatSlab_spec (cpu : ℕ) (hk : k + S_8B < S_REFUSE) (hhead : σ.slabsOfCpu cpu k ≠ some 0) :
    let σ' := formatSlab cpu (k + S_8B) S σ
    σ.page.OnlyMem σ'.page ∧
    σ'.slabsOfCpu = (σ.setSlabsOfCpu cpu k (some S)).slabsOfCpu ∧
    (∀ a, a < S ∨ S + 2 ^ 12 ≤ a → σ'.mem a = σ.mem a) ∧
    σ'.append S = σ.slabsOfCpu cpu k ∧
    SlabOk σ' cpu (k + S_8B) S (slabBlocks S (k + S_8B)).reverse := by
  rcases slabOcupy_spec (Nat.le_add_left _ _) hk with ⟨h64, -, -, -, hfill⟩
  have hidx : k + S_8B - SLAB_SIZE_OFFSET = k := by simp [S_8B, SLAB_SIZE_OFFSET]
  have hheader := slabHeader_mem cpu (k + S_8B) S σ
  have hempty : Chain (slabHeader cpu (k + S_8B) S σ).next
      ((slabHeader cpu (k + S_8B) S σ).freeList S) [] := by
    have hnull : (slabHeader cpu (k + S_8B) S σ).mem (S + 16) = 0 := by simp [hheader]
    rw [chain_nil, SlabSys.freeList, SlabSys.ptr, if_pos hnull]
  obtain ⟨hpage, hlists, hout, hchain⟩ := formatBlocks_spec S (k + S_8B)
    (slabBlockNum (k + S_8B)) (show S + 64 ≤ S + slabOcupy (k + S_8B) by omega) hempty (by simp)
  rw [List.append_nil] at hchain
  simp only [formatSlab_eq, hidx]
  generalize formatBlocks S (k + S_8B) (slabBlockNum (k + S_8B)) (S + slabOcupy (k + S_8B))
    (slabHeader cpu (k + S_8B) S σ) = σ₂ at hpage hlists hout hchain ⊢
  have hlists₂ := hlists.trans (slabHeader_slabsOfCpu cpu (k + S_8B) S σ)
  have hpage₂ : σ.page.OnlyMem σ₂.page := (slabHeader_page cpu (k + S_8B) S σ).trans hpage
  rw [hlists₂]
  -- the header but for the free list is the one written first
  have hcell : ∀ a, a < S + 32 → a ≠ S + 16 →
      (σ₂.setAppend S (σ.slabsOfCpu cpu k)).mem a = (slabHeader cpu (k + S_8B) S σ).mem a :=
    fun a h1 h2 => (SlabSys.mem_setMem_ne (by omega)).trans (hout a h2 (by omega))
  refine ⟨?_, ?_, fun a ha => ?_,
    SlabSys.ptr_setPtr_self hhead, ?_, ?_, ?_, ?_, ?_, ?_, fun a ha => List.mem_reverse.1 ha⟩
  · rw [SlabSys.page_setSlabsOfCpu]
    exact hpage₂.setMem _ _
  · funext c j
    rw [slabsOfCpu_setSlabsOfCpu, slabsOfCpu_setSlabsOfCpu]
    simp only [SlabSys.setAppend, SlabSys.setPtr, SlabSys.slabsOfCpu_setMem, hlists₂]
  · refine (SlabSys.mem_setMem_ne (by omega)).trans ((hout a (by omega) (by omega)).trans ?_)
    rw [hheader]
    iterate 6 rw [if_neg (by omega)]
  · refine (hcell S (by omega) (by omega)).trans ?_
    simp [hheader]
  · refine (hcell (S + 4) (by omega) (by omega)).trans ?_
    simp [hheader]
  · refine (hcell (S + 12) (by omega) (by omega)).trans ?_
    simp [hheader]
  · refine (hcell (S + 8) (by omega) (by omega)).trans ?_
    simp [hheader]
  · refine (hcell (S + 24) (by omega) (by omega)).trans ?_
    simp [hheader, length_slabBlocks]
  · have hp : ((σ₂.setAppend S (σ.slabsOfCpu cpu k)).setSlabsOfCpu cpu k (some S)).freeList S =
        σ₂.freeList S := SlabSys.ptr_congr (SlabSys.mem_setMem_ne (by omega))
    rw [hp]
    refine hchain.congr fun b hb => SlabSys.ptr_congr (SlabSys.mem_setMem_ne ?_)
    have := slabBlocks_bounds (Nat.le_add_left _ _) hk (List.mem_reverse.1 hb)
    omega

/-- Without a free page `slab_init` fails and changes nothing, else it puts a new slab in front of
the list. -/
theorem slabInit_spec (h : ListsInv heap T L F σ) (cpu : ℕ) (hk : k + S_8B < S_REFUSE) :
    ((∀ i < heap.units, (T i).summary P_4K < P_4K) ∧
      slabInit cpu (k + S_8B) σ = some (none, σ)) ∨
    ∃ S T' σ', slabInit cpu (k + S_8B) σ = some (some S, σ') ∧ Grants heap T T' ⟨S, 12⟩ ∧
      ListsInv heap T' (setList L cpu k (S :: L cpu k))
        (Function.update F S (slabBlocks S (k + S_8B)).reverse) σ' := by
  have hpage : transPageSize SLAB_SPACE = P_4K := by decide
  rcases pageAlloc_grants h.rep SLAB_SPACE with
    ⟨hno, hnone⟩ | ⟨-, S, T', p, hsome, hrep, hgr, hmem⟩
  · left
    rw [hpage] at hno
    refine ⟨hno.resolve_left (by decide), ?_⟩
    unfold slabInit
    rw [hnone]
    rfl
  · right
    rw [hpage] at hgr
    have hS : Given heap T' ⟨S, 12⟩ := (hgr.given _).2 (Or.inl rfl)
    have hinv : ListsInv heap T' L F { σ with page := p } :=
      h.grant hrep hmem fun B hB => (hgr.given B).2 (Or.inr hB)
    have hhead : ({ σ with page := p } : SlabSys).slabsOfCpu cpu k ≠ some 0 := by
      intro he
      have hch := hinv.chain cpu k
      rw [he, chain_some] at hch
      rcases hch with ⟨l, hl, -⟩
      exact hinv.ne_zero (show 0 ∈ L cpu k by simp [hl]) rfl
    rcases formatSlab_spec (S := S) cpu hk hhead with ⟨hpage', hlists, hout, happ, hok⟩
    refine ⟨S, T', _, ?_, hgr, hinv.push hk hS (fun c j hmem' => ?_) hpage' hlists hout happ hok⟩
    · unfold slabInit
      rw [hsome]
      simp only [Option.map_some]
      rw [if_pos (isAligned_iff.2 hS.aligned)]
    · -- a slab on a list was given out before
      exact (hgr.apart _ (h.given c j S hmem')).ne rfl

/-- A new slab is locked, and passes the check: it has free blocks. -/
theorem lockNewSlab_spec (h : ListsInv heap T L F σ) (hS : S ∈ L cpu k) (hF : F S ≠ []) :
    lockNewSlab (some S, σ) = some (some S, σ.setLocked S 1) := by
  have hok := h.slab cpu k S hS
  have hnum : (σ.setLocked S 1).freeBlockNum S = (F S).length :=
    (SlabSys.mem_setMem_ne (by omega)).trans hok.freeBlockNum
  have hpos := List.length_pos_iff.2 hF
  unfold lockNewSlab
  simp only [hok.lockSlab, Option.map_some, hnum]
  rw [if_neg (by omega)]

/-- A size beyond the classes of the slabs goes to `page_alloc`. -/
theorem slabAlloc_of_refuse {size : ℕ} (h : transSlabSize size = S_REFUSE) (fuel cpu : ℕ)
    (σ : SlabSys) : slabAlloc fuel cpu size σ =
      (pageAlloc size σ.page).map fun r => (r.1, { σ with page := r.2 }) := by
  unfold slabAlloc
  exact if_pos h

/-- Any other size has a class. -/
theorem transSlabSize_class {size : ℕ} (h : transSlabSize size ≠ S_REFUSE) :
    ∃ k, transSlabSize size = k + S_8B ∧ k + S_8B < S_REFUSE := by
  have hle : transSlabSize size ≤ S_REFUSE := transSize_le (by decide) size
  rcases Nat.exists_eq_add_of_le' (first_le_transSize (show S_8B ≤ S_REFUSE by decide) size) with
    ⟨k, hk⟩
  refine ⟨k, hk, ?_⟩
  rw [← show transSlabSize size = k + S_8B from hk]
  exact Nat.lt_of_le_of_ne hle h

/-- What `slab_alloc` can do for a size of a slab class: fail and change nothing, take a block of
a slab on the list, or, when these are all used up, of a new slab. -/
theorem slabAlloc_spec (h : ListsInv heap T L F σ) {size : ℕ}
    (hsize : transSlabSize size = k + S_8B) (hk : k + S_8B < S_REFUSE) (fuel cpu : ℕ) :
    (slabAlloc fuel cpu size σ = none ∧ fuel < (L cpu k).length) ∨
    (((∀ Q ∈ L cpu k, F Q = []) ∧ ∀ i < heap.units, (T i).summary P_4K < P_4K) ∧
      slabAlloc fuel cpu size σ = some (none, σ)) ∨
    (∃ Q a rest σ', Q ∈ L cpu k ∧ F Q = a :: rest ∧
      slabAlloc fuel cpu size σ = some (some a, σ') ∧
      ListsInv heap T L (Function.update F Q rest) σ') ∨
    ((∀ Q ∈ L cpu k, F Q = []) ∧ ∃ S T' a rest σ', Grants heap T T' ⟨S, 12⟩ ∧
      (slabBlocks S (k + S_8B)).reverse = a :: rest ∧
      slabAlloc fuel cpu size σ = some (some a, σ') ∧
      ListsInv heap T' (setList L cpu k (S :: L cpu k)) (Function.update F S rest) σ') := by
  have hrun : slabAlloc fuel cpu size σ =
      ((searchSlabs fuel cpu (k + S_8B) σ).bind (requestNewSlab cpu (k + S_8B))).bind
        (takeBlock (k + S_8B)) := by
    unfold slabAlloc
    simp only [hsize]
    exact if_neg (by omega)
  rw [hrun]
  rcases searchSlabs_spec h fuel cpu k with
    ⟨hnone, hlt⟩ | ⟨hfull, hnone⟩ | ⟨Q, hQ, hF, hfound⟩
  · exact Or.inl ⟨by rw [hnone]; rfl, hlt⟩
  · right
    rcases slabInit_spec h cpu hk with ⟨hno, hfail⟩ | ⟨S, T', σ₁, hinit, hgr, hinv⟩
    · left
      refine ⟨⟨hfull, hno⟩, ?_⟩
      rw [hnone, Option.bind_some, requestNewSlab, hfail]
      rfl
    · right; right
      have hS : S ∈ setList L cpu k (S :: L cpu k) cpu k := by simp
      have hF : Function.update F S (slabBlocks S (k + S_8B)).reverse S =
          (slabBlocks S (k + S_8B)).reverse := Function.update_self _ _ _
      rcases slabOcupy_spec (Nat.le_add_left _ _) hk with ⟨-, -, -, hpos, -⟩
      cases hrev : (slabBlocks S (k + S_8B)).reverse with
      | nil =>
          have hlen := congrArg List.length hrev
          rw [List.length_reverse, length_slabBlocks, List.length_nil] at hlen
          omega
      | cons a rest =>
          rw [hrev] at hF hinv
          rcases takeBlock_spec hinv hS hF with ⟨σ', htake, hinv'⟩
          rw [Function.update_idem] at hinv'
          refine ⟨hfull, S, T', a, rest, σ', hgr, hrev, ?_, hinv'⟩
          rw [hnone, Option.bind_some, requestNewSlab, hinit, Option.bind_some,
            lockNewSlab_spec hinv hS (by rw [hF]; exact List.cons_ne_nil _ _), Option.bind_some]
          exact htake
  · right; right; left
    rcases List.exists_cons_of_ne_nil hF with ⟨a, rest, hF⟩
    rcases takeBlock_spec h hQ hF with ⟨σ', htake, hinv⟩
    refine ⟨Q, a, rest, σ', hQ, hF, ?_, hinv⟩
    rw [hfound, Option.bind_some, requestNewSlab, Option.bind_some]
    exact htake

/-! ## Taking a block back -/

section Free

variable {a : ℕ}

/-- The memory once the block `a` is in front of the free list; the lock is held. -/
def pushedBack (σ : SlabSys) (S a : ℕ) : SlabSys :=
  let σ := (σ.setLocked S 1).setNext a (σ.freeList S)
  (σ.setFreeList S (some a)).setFreeBlockNum S (σ.freeBlockNum S + 1)

/-- Whatever is done with the lock afterwards, the slab has one more free block. -/
theorem ListsInv.pushBack (h : ListsInv heap T L F σ) (hS : S ∈ L cpu k)
    (ha : a ∈ slabBlocks S (k + S_8B)) (hnot : a ∉ F S) :
    ListsInv heap T L (Function.update F S (a :: F S)) ((pushedBack σ S a).unlockSlab S) := by
  have hok := h.slab cpu k S hS
  have hb := slabBlocks_bounds (Nat.le_add_left _ _) (h.class_lt cpu k S hS) ha
  have hpos := Nat.two_pow_pos (k + S_8B)
  have hne := h.ne_zero hS
  have hmem : ∀ b, b ≠ S → b ≠ a → b ≠ S + 16 → b ≠ S + 24 →
      ((pushedBack σ S a).unlockSlab S).mem b = σ.mem b := by
    intro b h1 h2 h3 h4
    refine (SlabSys.mem_setMem_ne h1).trans ((SlabSys.mem_setMem_ne h4).trans ?_)
    refine (SlabSys.mem_setMem_ne h3).trans ((SlabSys.mem_setMem_ne h2).trans ?_)
    exact SlabSys.mem_setMem_ne h1
  have hch : ChangesPage S σ ((pushedBack σ S a).unlockSlab S) :=
    (((((ChangesPage.refl S σ).setMem _ (by omega) (by omega)).setMem _ (by omega) (by omega)).setMem
      _ (by omega) (by omega)).setMem _ (by omega) (by omega)).setMem _ (by omega) (by omega)
  refine h.modify hS hch (SlabSys.ptr_congr (hmem _ (by omega) (by omega) (by omega) (by omega))) ?_
  refine hok.exchange SlabSys.mem_setMem_self
    (fun b _ _ => hmem b (by omega) (by omega) (by omega) (by omega)) ?_ ?_ ?_
  · refine (SlabSys.mem_setMem_ne (by omega)).trans (SlabSys.mem_setMem_self.trans ?_)
    refine congrArg (· + 1) ?_
    refine (SlabSys.mem_setMem_ne (by omega)).trans ((SlabSys.mem_setMem_ne (by omega)).trans ?_)
    exact hok.freeBlockNum
  · have hp : ((pushedBack σ S a).unlockSlab S).freeList S = some a := by
      refine (SlabSys.ptr_congr (SlabSys.mem_setMem_ne (by omega))).trans ?_
      refine (SlabSys.ptr_congr (SlabSys.mem_setMem_ne (by omega))).trans ?_
      exact SlabSys.ptr_setPtr_self (by simp only [ne_eq, Option.some.injEq]; omega)
    have hnext : ((pushedBack σ S a).unlockSlab S).next a = σ.freeList S := by
      refine (SlabSys.ptr_congr (SlabSys.mem_setMem_ne (by omega))).trans ?_
      refine (SlabSys.ptr_congr (SlabSys.mem_setMem_ne (by omega))).trans ?_
      refine (SlabSys.ptr_congr (SlabSys.mem_setMem_ne (by omega))).trans ?_
      exact SlabSys.ptr_setPtr_self (SlabSys.ptr_ne_some_zero _ _)
    rw [hp]
    refine .cons (hnext ▸ hok.freeList.congr fun b hb => SlabSys.ptr_congr ?_)
    have := h.free_bounds hS hb
    exact hmem b (by omega) (fun he => hnot (he ▸ hb)) (by omega) (by omega)
  · intro b hb
    rcases List.mem_cons.1 hb with rfl | hb
    · exact ha
    · exact hok.inside b hb

/-- What the rest of `slab_free` reads in the slab it holds. -/
theorem pushedBack_fields (h : ListsInv heap T L F σ) (hS : S ∈ L cpu k)
    (ha : a ∈ slabBlocks S (k + S_8B)) :
    (pushedBack σ S a).locked S = 1 ∧ (pushedBack σ S a).cpuId S = cpu ∧
      (pushedBack σ S a).type S = k + S_8B ∧
      (pushedBack σ S a).freeBlockNum S = (F S).length + 1 ∧
      (pushedBack σ S a).blockNum S = slabBlockNum (k + S_8B) ∧
      (pushedBack σ S a).slabsOfCpu = σ.slabsOfCpu ∧ σ.page.OnlyMem (pushedBack σ S a).page ∧
      (∀ b, b < S ∨ S + 2 ^ 12 ≤ b → (pushedBack σ S a).mem b = σ.mem b) ∧
      (pushedBack σ S a).append S = σ.append S := by
  have hok := h.slab cpu k S hS
  have hb := slabBlocks_bounds (Nat.le_add_left _ _) (h.class_lt cpu k S hS) ha
  have hpos := Nat.two_pow_pos (k + S_8B)
  have hmem : ∀ b, b ≠ S → b ≠ a → b ≠ S + 16 → b ≠ S + 24 →
      (pushedBack σ S a).mem b = σ.mem b := by
    intro b h1 h2 h3 h4
    refine (SlabSys.mem_setMem_ne h4).trans ((SlabSys.mem_setMem_ne h3).trans ?_)
    exact (SlabSys.mem_setMem_ne h2).trans (SlabSys.mem_setMem_ne h1)
  have hlabel : ∀ b, S < b → b < S + 64 → b ≠ S + 16 → b ≠ S + 24 →
      (pushedBack σ S a).mem b = σ.mem b := fun b _ _ h3 h4 =>
    hmem b (by omega) (by omega) h3 h4
  refine ⟨?_, (hlabel _ (by omega) (by omega) (by omega) (by omega)).trans hok.cpuId,
    (hlabel _ (by omega) (by omega) (by omega) (by omega)).trans hok.type, ?_,
    (hlabel _ (by omega) (by omega) (by omega) (by omega)).trans hok.blockNum, ?_, ?_,
    fun b h1 => hmem b (by omega) (by omega) (by omega) (by omega),
    SlabSys.ptr_congr (hlabel _ (by omega) (by omega) (by omega) (by omega))⟩
  · refine (SlabSys.mem_setMem_ne (by omega)).trans ((SlabSys.mem_setMem_ne (by omega)).trans ?_)
    exact (SlabSys.mem_setMem_ne (by omega)).trans SlabSys.mem_setMem_self
  · refine SlabSys.mem_setMem_self.trans (congrArg (· + 1) ?_)
    refine (SlabSys.mem_setMem_ne (by omega)).trans ((SlabSys.mem_setMem_ne (by omega)).trans ?_)
    exact hok.freeBlockNum
  · simp only [pushedBack, SlabSys.setFreeBlockNum, SlabSys.setFreeList, SlabSys.setNext,
      SlabSys.setLocked, SlabSys.setPtr, SlabSys.slabsOfCpu_setMem]
  · exact ((((PageSys.OnlyMem.refl _).setMem _ _).setMem _ _).setMem _ _).setMem _ _

/-- `slab_free` up to its test, which decides about the recovery. -/
theorem slabFree_eq (h : ListsInv heap T L F σ) (hS : S ∈ L cpu k)
    (ha : a ∈ slabBlocks S (k + S_8B)) (fuel : ℕ) :
    slabFree fuel a σ =
      if (F S).length + 1 = slabBlockNum (k + S_8B) then recoverSlab fuel S (pushedBack σ S a)
      else some ((pushedBack σ S a).unlockSlab S) := by
  have hok := h.slab cpu k S hS
  have hb := slabBlocks_bounds (Nat.le_add_left _ _) (h.class_lt cpu k S hS) ha
  have hpos := Nat.two_pow_pos (k + S_8B)
  have hslab : slabOf a = S := slabOf_eq (h.dvd hS) (by omega) (by omega)
  have halign : IsAligned S 12 := isAligned_iff.2 (h.dvd hS)
  rcases pushedBack_fields h hS ha with ⟨-, -, -, hnum, hblock, -⟩
  have hlist : (σ.setLocked S 1).freeList S = σ.freeList S :=
    SlabSys.ptr_congr (SlabSys.mem_setMem_ne (by omega))
  have hcount : ∀ (τ : SlabSys) p, (τ.setFreeList S p).freeBlockNum S = τ.freeBlockNum S :=
    fun τ p => SlabSys.mem_setMem_ne (by omega)
  unfold slabFree
  simp only [hslab]
  rw [if_neg (not_not.2 halign), hok.lockSlab, Option.bind_some, hlist, hcount]
  change (if (pushedBack σ S a).freeBlockNum S = (pushedBack σ S a).blockNum S then
    recoverSlab fuel S (pushedBack σ S a) else some ((pushedBack σ S a).unlockSlab S)) = _
  rw [hnum, hblock]

/-- Nobody else runs, so nobody holds the slab in front: the recovery goes through. -/
theorem unlinkSlab_spec (h : ListsInv heap T L F σ) {pre suf : List ℕ} {Q : ℕ}
    (hl : L cpu k = pre ++ Q :: S :: suf) (ha : a ∈ slabBlocks S (k + S_8B)) :
    ∃ σ', unlinkSlab Q S (pushedBack σ S a) = some σ' ∧
      ListsInv heap T (setList L cpu k (pre ++ Q :: suf)) F σ' := by
  have hS : S ∈ L cpu k := by simp [hl]
  have hQ : Q ∈ L cpu k := by simp [hl]
  have hd := h.dvd hS
  have hdQ := h.dvd hQ
  have hbase := h.base_le hS
  have hbaseQ := h.base_le hQ
  rcases pushedBack_fields h hS ha with ⟨-, -, -, -, -, hlists, hpage, hout, happ⟩
  generalize pushedBack σ S a = τ at hlists hpage hout happ ⊢
  have hne : Q ≠ S := by
    have hnd := (h.chain cpu k).nodup
    rw [hl] at hnd
    simp only [List.nodup_append, List.nodup_cons, List.mem_cons] at hnd
    exact fun he => hnd.2.1.1 (Or.inl he)
  have hap := apart_pages hdQ hd hne
  have hlockedQ : τ.locked Q = 0 := (hout Q (by omega)).trans (h.slab cpu k Q hQ).locked
  have htry : τ.tryLockSlab Q = (true, τ.setLocked Q 1) := by
    unfold SlabSys.tryLockSlab tryLock
    simp only [hlockedQ]
    rfl
  have happ₁ : (τ.setLocked Q 1).append S = σ.append S :=
    (SlabSys.ptr_congr (SlabSys.mem_setMem_ne (by omega))).trans happ
  let τ' := (τ.setLocked Q 1).setAppend Q (σ.append S)
  have hpage' : σ.page.OnlyMem τ'.page := (hpage.setMem _ _).setMem _ _
  have hmem' : ∀ b, b < S ∨ S + 2 ^ 12 ≤ b → b ≠ Q → b ≠ Q + 32 → τ'.mem b = σ.mem b := by
    intro b h1 h2 h3
    exact (SlabSys.mem_setMem_ne h3).trans ((SlabSys.mem_setMem_ne h2).trans (hout b h1))
  -- the page goes back to `page_free`, which does nothing
  have hfree : pageFree S τ'.page = some τ'.page := by
    refine pageFree_given (h.rep.congr hpage' fun b hb => ?_) (h.given cpu k S hS)
    exact hmem' b (by omega) (by omega) (by omega)
  refine ⟨τ'.unlockSlab Q, ?_, h.unlink hl (hpage'.setMem _ _) hlists (fun b h1 h2 => ?_) ?_⟩
  · unfold unlinkSlab
    rw [htry]
    simp only [happ₁]
    rw [if_neg (by simp), hfree]
    rfl
  · by_cases hb : b = Q
    · subst hb
      exact SlabSys.mem_setMem_self.trans (h.slab cpu k b hQ).locked.symm
    · exact (SlabSys.mem_setMem_ne hb).trans (hmem' b h1 hb h2)
  · refine (SlabSys.ptr_congr (SlabSys.mem_setMem_ne (by omega))).trans ?_
    exact SlabSys.ptr_setPtr_self (SlabSys.ptr_ne_some_zero _ _)

/-- `slab_free`: the block goes back, and unless the slab is the head of its list it is unlinked
when that was its last block. -/
theorem slabFree_spec (h : ListsInv heap T L F σ) (hS : S ∈ L cpu k)
    (ha : a ∈ slabBlocks S (k + S_8B)) (hnot : a ∉ F S) (fuel : ℕ) :
    (slabFree fuel a σ = none ∧ fuel < (L cpu k).length) ∨
    (∃ σ', slabFree fuel a σ = some σ' ∧
      ((F S).length + 1 ≠ slabBlockNum (k + S_8B) ∨ (L cpu k).head? = some S) ∧
      ListsInv heap T L (Function.update F S (a :: F S)) σ') ∨
    (∃ σ' pre Q suf, slabFree fuel a σ = some σ' ∧ L cpu k = pre ++ Q :: S :: suf ∧
      (F S).length + 1 = slabBlockNum (k + S_8B) ∧
      ListsInv heap T (setList L cpu k (pre ++ Q :: suf)) F σ') := by
  have hpush := h.pushBack hS ha hnot
  rw [slabFree_eq h hS ha]
  by_cases hfull : (F S).length + 1 = slabBlockNum (k + S_8B)
  swap
  · exact Or.inr (Or.inl ⟨_, if_neg hfull, Or.inl hfull, hpush⟩)
  rw [if_pos hfull]
  rcases pushedBack_fields h hS ha with ⟨hlocked, hcpu, htype, hnum, hblock, hlists, -, hout, happ⟩
  have hidx : k + S_8B - SLAB_SIZE_OFFSET = k := by simp [S_8B, SLAB_SIZE_OFFSET]
  have htry : (pushedBack σ S a).tryLockSlab S = (false, pushedBack σ S a) := by
    unfold SlabSys.tryLockSlab tryLock
    simp only [hlocked]
    exact congrArg (Prod.mk false) (SlabSys.setMem_mem_self hlocked)
  unfold recoverSlab
  simp only [hnum, hblock, htry, hcpu, htype, hidx, hlists]
  rw [if_neg (by omega), if_neg (by simp)]
  cases hl : L cpu k with
  | nil =>
      rw [hl] at hS
      cases hS
  | cons P l =>
      have hchain := h.chain cpu k
      rw [hl] at hchain
      rcases chain_cons.1 hchain with ⟨hhead, -⟩
      rw [hhead] at hchain ⊢
      by_cases hP : P = S
      · subst hP
        exact Or.inr (Or.inl ⟨_, if_pos rfl, Or.inr rfl, hpush⟩)
      · have hSl : S ∈ l := by
          rw [hl] at hS
          exact (List.mem_cons.1 hS).resolve_left (Ne.symm hP)
        -- the walk sees the links as they were before
        have hchain' : Chain (pushedBack σ S a).append (some P) (P :: l) := by
          refine hchain.congr fun R hR => ?_
          by_cases hR' : R = S
          · rw [hR', happ]
          · have hRl : R ∈ L cpu k := hl ▸ hR
            have := apart_pages (h.dvd hRl) (h.dvd hS) hR'
            exact SlabSys.ptr_congr (hout _ (by omega))
        rw [if_neg (by simpa using hP), Option.bind_some]
        rcases findPrev_spec hchain' hSl fuel with ⟨hnone, hle⟩ | ⟨pre, Q, suf, hsplit, hfind⟩
        · left
          rw [hnone]
          exact ⟨rfl, Nat.lt_succ_of_le hle⟩
        · right; right
          rw [hfind]
          have hl' : L cpu k = pre ++ Q :: S :: suf := hl.trans hsplit
          rcases unlinkSlab_spec h hl' ha with ⟨σ', hun, hinv⟩
          exact ⟨σ', pre, Q, suf, hun, hsplit, hfull, hinv⟩

end Free

end Ops

end OsLab
