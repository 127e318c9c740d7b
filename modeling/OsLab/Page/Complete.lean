import OsLab.Page.Heap
import OsLab.Page.Run

/-! # Completeness of `page_alloc`

When may `page_alloc` answer `NULL`? A node that had exactly one block of the
requested class left is marked `HAVE_BUBBLE` once that block is given out, and
what is still free below it is not allocated any more; the source says so in a
comment. So the free regions in the block of a node that holds `HAVE_BUBBLE` do
not count, and apart from them the search is complete (`pageAlloc_null_iff`).
Which nodes these are is the subject of `OsLab.Page.Bubble`.
-/

namespace OsLab

open Buddy Trace

/-- `B` is a free, naturally aligned region of class `c` in unit `i`. -/
structure FreeRegion (s : PageState) (i c : ℕ) (B : Block) : Prop where
  cls : B.cls = c
  aligned : B.size ∣ B.addr
  inside : B.Inside ⟨s.sys.beginAllocAddr + i * PHSICS_UNIT, P_16M⟩
  free : ∀ b ∈ s.live, B.Apart b.block

/-- `B` lies in the block of a node of unit `i` that is marked `HAVE_BUBBLE`. -/
def InBubble (s : PageState) (i : ℕ) (B : Block) : Prop :=
  ∃ k j, AtHeight k j ∧ s.sys.node (s.sys.pagePool i) j = HAVE_BUBBLE ∧
    B.Inside (s.sys.nodeBlock (s.sys.pagePool i) k j)

/-- No call of `page_free` in the history. -/
def NoFrees (h : List (PageState × PageCall)) : Prop :=
  AllSteps (fun _ e => ∃ size, e = PageCall.alloc size) h

/-! ## Marked nodes and sealed nodes -/

section Nodes

variable {σ : PageSys} {page h i : ℕ}

/-- The blocks of the children are the halves of a node's block. -/
theorem nodeBlock_children (hi : AtHeight (h + 1) i) :
    (σ.nodeBlock page h (leftBranch i)).Inside (σ.nodeBlock page (h + 1) i) ∧
    (σ.nodeBlock page h (rightBranch i)).Inside (σ.nodeBlock page (h + 1) i) := by
  have hpow : 2 ^ (P_4K + (h + 1)) = 2 * 2 ^ (P_4K + h) := by ring
  simp only [Block.Inside, PageSys.nodeBlock, Block.size, convert_left hi, convert_right hi, hpow]
  omega

/-- The height of a node is determined by its index. -/
theorem AtHeight.unique {k : ℕ} (h1 : AtHeight h i) (h2 : AtHeight k i) : h = k := by
  have := h1.class_eq.symm.trans h2.class_eq
  omega

/-- The block of a descendant lies in the block of the node. -/
theorem nodeBlock_inside {k j : ℕ} (hi : AtHeight h i) (hj : AtHeight k j) (hu : Under i j) :
    (σ.nodeBlock page k j).Inside (σ.nodeBlock page h i) := by
  induction h generalizing i with
  | zero =>
      obtain rfl := hi.eq_of_under hu hj.lt
      rw [hj.unique hi]
      exact ⟨Nat.le_refl _, Nat.le_refl _⟩
  | succ h ih =>
      rcases hu.cases with rfl | hl | hr
      · rw [hj.unique hi]
        exact ⟨Nat.le_refl _, Nat.le_refl _⟩
      · exact (ih hi.left hl).trans (nodeBlock_children hi).1
      · exact (ih hi.right hr).trans (nodeBlock_children hi).2

/-- A sealed node of the buddy tree is a marked node of the page tree. -/
theorem Rep.marked_of_sealed {T : BuddyTree h} {S : Block} (hi : AtHeight h i)
    (hr : Rep (σ.node page) T i)
    (hS : S ∈ T.sealedBlocks P_4K (convertPageToPhsics σ page i (P_4K + h))) :
    ∃ k j, AtHeight k j ∧ σ.node page j = HAVE_BUBBLE ∧ S = σ.nodeBlock page k j := by
  induction T generalizing i with
  | free => simp [BuddyTree.sealedBlocks] at hS
  | used => simp [BuddyTree.sealedBlocks] at hS
  | @split h s l r ihl ihr =>
      rw [BuddyTree.sealedBlocks] at hS
      rcases List.mem_append.1 hS with hS | hS
      · cases s with
        | false => simp at hS
        | true =>
            simp only [if_true, List.mem_singleton] at hS
            exact ⟨h + 1, i, hi, hr.1, hS⟩
      · rcases List.mem_append.1 hS with hl | hrt
        · exact ihl hi.left hr.2.1 (by rwa [convert_left hi])
        · exact ihr hi.right hr.2.2 (by rwa [convert_right hi])

theorem mem_blocks_left {s : Bool} {l r : BuddyTree h} {C : Block} (hi : AtHeight (h + 1) i)
    (hC : C ∈ l.blocks P_4K (convertPageToPhsics σ page (leftBranch i) (P_4K + h))) :
    C ∈ (BuddyTree.split s l r).blocks P_4K (convertPageToPhsics σ page i (P_4K + (h + 1))) := by
  rw [convert_left hi] at hC
  exact List.mem_append_left _ hC

theorem mem_blocks_right {s : Bool} {l r : BuddyTree h} {C : Block} (hi : AtHeight (h + 1) i)
    (hC : C ∈ r.blocks P_4K (convertPageToPhsics σ page (rightBranch i) (P_4K + h))) :
    C ∈ (BuddyTree.split s l r).blocks P_4K (convertPageToPhsics σ page i (P_4K + (h + 1))) := by
  rw [convert_right hi] at hC
  exact List.mem_append_right _ hC

/-- A block in a marked node either overlaps a block given out or lies in a sealed node. -/
theorem Rep.sealed_of_marked {T : BuddyTree h} {k j : ℕ} {B : Block} (hi : AtHeight h i)
    (hr : Rep (σ.node page) T i) (hT : T.Proper)
    (hdvd : 2 ^ (P_4K + h) ∣ convertPageToPhsics σ page i (P_4K + h))
    (hj : AtHeight k j) (hu : Under i j) (hmark : σ.node page j = HAVE_BUBBLE)
    (hcls : P_4K ≤ B.cls) (hdvdB : B.size ∣ B.addr) (hB : B.Inside (σ.nodeBlock page k j))
    (hap : ∀ C ∈ T.blocks P_4K (convertPageToPhsics σ page i (P_4K + h)), B.Apart C) :
    ∃ S ∈ T.sealedBlocks P_4K (convertPageToPhsics σ page i (P_4K + h)), B.Inside S := by
  induction T generalizing i with
  | free =>
      -- nothing below a free node is marked
      have hval := (rep_free.1 hr).val_of_under hi hu hj.lt
      rw [hmark, hj.class_eq] at hval
      simp only [HAVE_BUBBLE, P_4K] at hval
      omega
  | used =>
      have hin := hB.trans (nodeBlock_inside hi hj hu)
      have hne := hap _ (List.mem_singleton.2 rfl)
      have hpos := B.size_pos
      simp only [Block.Inside, PageSys.nodeBlock] at hin
      simp only [Block.Apart, Buddy.Apart] at hne
      omega
  | @split h s l r ihl ihr =>
      rcases hu.cases with rfl | hl | hrt
      · -- the node itself is marked: its summary promises nothing
        have hsum := hr.val
        rw [hmark] at hsum
        by_contra hno
        have hopen : BuddyTree.Open P_4K (.split s l r)
            (convertPageToPhsics σ page j (P_4K + (h + 1))) B := by
          refine ⟨hdvdB, ?_, hap, fun S hS hin => hno ⟨S, hS, hin⟩⟩
          rw [hj.unique hi] at hB
          exact hB
        have hle := (BuddyTree.le_summary_iff hT hdvd hcls
          (Nat.lt_of_lt_of_le (by decide) hcls)).2 ⟨B, rfl, hopen⟩
        rw [← hsum] at hle
        simp only [HAVE_BUBBLE, P_4K] at hle hcls
        omega
      · have hd : 2 ^ (P_4K + h) ∣ convertPageToPhsics σ page (leftBranch i) (P_4K + h) := by
          rw [convert_left hi]
          exact dvd_trans (Nat.pow_dvd_pow 2 (by omega)) hdvd
        obtain ⟨S, hS, hin⟩ := ihl hi.left hr.2.1 hT.2.1 hd hl fun C hC =>
          hap C (mem_blocks_left hi hC)
        rw [convert_left hi] at hS
        exact ⟨S, List.mem_append_right _ (List.mem_append_left _ hS), hin⟩
      · have hd : 2 ^ (P_4K + h) ∣ convertPageToPhsics σ page (rightBranch i) (P_4K + h) := by
          rw [convert_right hi]
          exact Nat.dvd_add (dvd_trans (Nat.pow_dvd_pow 2 (by omega)) hdvd) dvd_rfl
        obtain ⟨S, hS, hin⟩ := ihr hi.right hr.2.2 hT.2.2 hd hrt fun C hC =>
          hap C (mem_blocks_right hi hC)
        rw [convert_right hi] at hS
        exact ⟨S, List.mem_append_right _ (List.mem_append_right _ hS), hin⟩

end Nodes

/-! ## Runs without frees -/

/-- The invariant without frees: the live blocks are all that was given out, and in every tree
the search went left first. -/
structure AllocInv (heap : Area) (T : ℕ → BuddyTree 12) (s : PageState) : Prop where
  inv : PageInv heap T s
  live : ∀ C, Given heap T C → ∃ b ∈ s.live, b.block = C
  leftFirst : ∀ i < heap.units, (T i).LeftFirst P_4K

theorem allocInv_start (heap : Area) (mem : ℕ → ℕ) :
    AllocInv heap (fun _ => .free) (pageStart heap mem) where
  inv := pageInv_start heap mem
  live := by
    rintro C ⟨i, -, hC⟩
    simp [BuddyTree.blocks] at hC
  leftFirst _ _ := trivial

section AllocInv

variable {heap : Area} {T : ℕ → BuddyTree 12} {s s' : PageState}

/-- What a call of `page_alloc` does: nothing, or it gives out a block of unit `j`. -/
theorem AllocInv.alloc_cases (h : AllocInv heap T s) {size : ℕ}
    (hst : PageStep s (.alloc size) s') :
    (s' = s ∧ pageAlloc size s.sys = some (none, s.sys)) ∨
    ∃ j < heap.units, transPageSize size ≤ (T j).summary P_4K ∧ ∃ o t',
      (T j).alloc P_4K (transPageSize size) = some (o, t') ∧
      (∃ σ', pageAlloc size s.sys = some (some (heap.unitAddr j + o), σ')) ∧
      s'.live = ⟨heap.unitAddr j + o, size⟩ :: s.live ∧
      AllocInv heap (Function.update T j t') s' := by
  rcases h.inv.alloc_cases hst with
    ⟨rfl, hnull, -⟩ | ⟨hsize, j, hj, hge, o, t', ha, hsome, hl, hinv'⟩
  · exact Or.inl ⟨rfl, hnull⟩
  · have hc := (transPageSize_bounds hsize).1
    refine Or.inr ⟨j, hj, hge, o, t', ha, hsome, hl, hinv', fun C hC => ?_, fun i hi => ?_⟩
    · rw [hl]
      rcases (given_update hj hc ha C).1 hC with rfl | hC
      · exact ⟨_, List.mem_cons_self, rfl⟩
      · rcases h.live C hC with ⟨b, hb, he⟩
        exact ⟨b, List.mem_cons_of_mem _ hb, he⟩
    · by_cases hij : i = j
      · subst hij
        rw [Function.update_self]
        exact (h.leftFirst i hi).alloc (by decide) hc hge ha
      · rw [Function.update_of_ne hij]
        exact h.leftFirst i hi

theorem PageRun.allocInv {mem : ℕ → ℕ} {h : List (PageState × PageCall)}
    (hr : PageRun heap mem h s) (hno : NoFrees h) : ∃ T, AllocInv heap T s := by
  induction hr with
  | start hs =>
      subst hs
      exact ⟨_, allocInv_start heap mem⟩
  | @snoc h s t e _ hst ih =>
      rcases allSteps_cons.1 hno with ⟨⟨size, rfl⟩, hno'⟩
      rcases ih hno' with ⟨T, hinv⟩
      rcases hinv.alloc_cases hst with ⟨rfl, -⟩ | ⟨_, _, _, _, _, _, _, _, hinv'⟩
      · exact ⟨T, hinv⟩
      · exact ⟨_, hinv'⟩

/-- Free regions outside the marked nodes are the blocks the buddy tree is open for. -/
theorem AllocInv.open_iff {i c : ℕ} {B : Block} (h : AllocInv heap T s) (hi : i < heap.units)
    (hc : P_4K ≤ c) :
    (FreeRegion s i c B ∧ ¬ InBubble s i B) ↔
      B.cls = c ∧ BuddyTree.Open P_4K (T i) (heap.unitAddr i) B := by
  have hinv := h.inv
  have hrep := hinv.rep.rep i hi
  have hroot : convertPageToPhsics s.sys (heap.treeAddr i) 1 (P_4K + 12) = heap.unitAddr i :=
    convert_root hinv.rep.layout i
  have hunit : s.sys.beginAllocAddr + i * PHSICS_UNIT = heap.unitAddr i := by
    rw [hinv.rep.layout.beginAllocAddr, Area.unitAddr]
  have hpool := hinv.rep.layout.pagePool i hi
  constructor
  · rintro ⟨⟨rfl, hdvd, hin, hfree⟩, hbub⟩
    rw [hunit] at hin
    refine ⟨rfl, hdvd, hin, fun C hC => ?_, fun S hS hBS => hbub ?_⟩
    · rcases h.live C ⟨i, hi, hC⟩ with ⟨b, hb, rfl⟩
      exact hfree b hb
    · rw [← hroot] at hS
      rcases hrep.marked_of_sealed atHeight_root hS with ⟨k, j, hj, hmark, rfl⟩
      refine ⟨k, j, hj, ?_, ?_⟩ <;> rw [hpool] <;> assumption
  · rintro ⟨rfl, hopen⟩
    refine ⟨⟨rfl, hopen.aligned, ?_, fun b hb => ?_⟩, ?_⟩
    · rw [hunit]
      exact hopen.inside
    · rcases hinv.given b hb with ⟨j, hj, hC⟩
      by_cases hij : j = i
      · subst hij
        exact hopen.apart _ hC
      · -- the block lies in another unit
        have h1 := (BuddyTree.inside_of_mem_blocks hC).2
        have h2 := hopen.inside
        have h3 := unitAddr_apart heap hij
        have e : (2 : ℕ) ^ (P_4K + 12) = PHSICS_UNIT := rfl
        simp only [Block.Inside, Block.size, e] at h1 h2
        unfold Buddy.Apart at h3
        unfold Block.Apart Buddy.Apart Block.size
        omega
    · rintro ⟨k, j, hj, hmark, hBj⟩
      rw [hpool] at hmark hBj
      obtain ⟨S, hS, hBS⟩ := hrep.sealed_of_marked atHeight_root (hinv.rep.proper i hi)
        (by rw [hroot]; exact heap.dvd_unitAddr i) hj (under_root hj.pos) hmark hc hopen.aligned hBj
        (by rw [hroot]; exact hopen.apart)
      rw [hroot] at hS
      exact hopen.unsealed S hS hBS

end AllocInv

/-- `page_alloc` answers `NULL` exactly if the size exceeds 16 MiB or no unit contains a free
region of the class outside the blocks of the nodes marked `HAVE_BUBBLE`. -/
theorem pageAlloc_null_iff {heap : Area} {mem : ℕ → ℕ} {h : List (PageState × PageCall)}
    {s : PageState} (hr : PageRun heap mem h s) (hno : NoFrees h) (size : ℕ) :
    (∃ σ', pageAlloc size s.sys = some (none, σ')) ↔
      2 ^ 24 < size ∨ ¬ ∃ i < s.sys.realPageNum, ∃ B,
        FreeRegion s i (transPageSize size) B ∧ ¬ InBubble s i B := by
  rcases hr.allocInv hno with ⟨T, hA⟩
  have hinv := hA.inv
  rw [pageAlloc_isNone_iff hinv.rep, hinv.rep.layout.realPageNum]
  refine or_congr_right ?_
  have hc := P_4K_le_transPageSize size
  have hunit : ∀ i < heap.units, (transPageSize size ≤ (T i).summary P_4K ↔
      ∃ B, FreeRegion s i (transPageSize size) B ∧ ¬ InBubble s i B) := fun i hi => by
    simp only [hA.open_iff hi hc]
    exact BuddyTree.le_summary_iff (hinv.rep.proper i hi) (heap.dvd_unitAddr i) hc
      (Nat.lt_of_lt_of_le (by decide) hc)
  constructor
  · rintro hfull ⟨i, hi, hB⟩
    exact Nat.not_lt.2 ((hunit i hi).2 hB) (hfull i hi)
  · intro hnone i hi
    exact Nat.lt_of_not_le fun hle => hnone ⟨i, hi, (hunit i hi).1 hle⟩

/-! ## One unit with a bubble

A page and then the free half of the unit: the root had exactly one block of 8 MiB left, so it
is marked, and the 8 MiB less a page that are still free are not allocated any more. -/

theorem exists_run_bubble : ∃ h s, PageRun oneUnit (fun _ => 0) h s ∧ NoFrees h ∧
    s.live = [⟨oneUnit.unitAddr 0 + 2 ^ 23, 2 ^ 23⟩, ⟨oneUnit.unitAddr 0 + 0, 4096⟩] ∧
    s.sys.realPageNum = 1 ∧ s.sys.beginAllocAddr = oneUnit.unitAddr 0 ∧
    ∃ σ', pageAlloc 4096 s.sys = some (none, σ') := by
  rcases exists_run_firstPage with ⟨h, s, hr, rfl, hlive, hinv⟩
  have ha : (firstPage 12).alloc P_4K (transPageSize (2 ^ 23)) =
      some (2 ^ 23, .split true (firstPage 11) .used) := rfl
  obtain ⟨s', hst, hlive', hinv'⟩ := hinv.alloc_oneUnit (2 ^ 23) (by decide)
    (by rw [Function.update_self]; exact ha) (by rw [Function.update_self]; decide)
  refine ⟨_, s', Run.snoc hr hst, ?_, ?_, hinv'.rep.layout.realPageNum.trans units_oneUnit,
    hinv'.rep.layout.beginAllocAddr.trans (by decide),
    (pageAlloc_isNone_iff hinv'.rep).2 (Or.inr fun i hi => ?_)⟩
  · exact allSteps_cons.2 ⟨⟨_, rfl⟩, allSteps_cons.2 ⟨⟨_, rfl⟩, allSteps_nil⟩⟩
  · rw [hlive', hlive]
  · rw [units_oneUnit] at hi
    obtain rfl : i = 0 := by omega
    rw [Function.update_self]
    decide

/-- After the two requests no free page counts, and `page_alloc` answers `NULL`. -/
theorem pageAlloc_null_bubble : ∃ h s, PageRun oneUnit (fun _ => 0) h s ∧ NoFrees h ∧
    (∃ σ', pageAlloc 4096 s.sys = some (none, σ')) ∧
    ¬ ∃ i < s.sys.realPageNum, ∃ B,
      FreeRegion s i (transPageSize 4096) B ∧ ¬ InBubble s i B := by
  rcases exists_run_bubble with ⟨h, s, hr, hno, -, -, -, hnull⟩
  exact ⟨h, s, hr, hno, hnull, ((pageAlloc_null_iff hr hno 4096).1 hnull).resolve_left (by decide)⟩

/-- But there are free pages. -/
theorem not_pageAlloc_complete :
    ¬ ∀ (heap : Area) (mem : ℕ → ℕ) (h : List (PageState × PageCall)) (s : PageState),
      PageRun heap mem h s → NoFrees h → ∀ size,
        (∃ σ', pageAlloc size s.sys = some (none, σ')) →
          2 ^ 24 < size ∨
            ¬ ∃ i < s.sys.realPageNum, ∃ B, FreeRegion s i (transPageSize size) B := by
  intro hall
  rcases exists_run_bubble with ⟨h, s, hr, hno, hlive, hnum, hbase, hnull⟩
  have hunit : oneUnit.unitAddr 0 = 2 ^ 25 := by decide
  rw [hunit] at hlive hbase
  refine (hall _ _ _ _ hr hno 4096 hnull).elim (by decide) fun hnone => hnone ?_
  -- the second page of the unit
  refine ⟨0, by omega, ⟨2 ^ 25 + 4096, 12⟩, by decide, by decide, ?_, fun b hb => ?_⟩
  · rw [hbase]
    decide
  · rw [hlive, List.mem_cons, List.mem_singleton] at hb
    rcases hb with rfl | rfl <;> decide

end OsLab
