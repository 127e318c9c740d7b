import OsLab.Page.Init

/-! # The layout of the heap

The addresses of `page.c` are computed twice, independently: from a tree and a node to
the address of a block (`convert_page_to_phsics`), and from an address back to a unit
(`page_free`). `LayoutSound` is what both rely on, for any heap that ends at 4 GiB at most.
-/

namespace OsLab

open Buddy

/-! ## Units and blocks of nodes -/

namespace PageSys

/-- The address of unit `i`. -/
def unitStart (σ : PageSys) (i : ℕ) : ℕ := σ.beginAllocAddr + i * PHSICS_UNIT

/-- Unit `i`, as a block. -/
def unitBlock (σ : PageSys) (i : ℕ) : Block := ⟨σ.unitStart i, P_16M⟩

/-- The block of node `j`, of height `k`, of the tree at `page`. -/
def nodeBlock (σ : PageSys) (page k j : ℕ) : Block :=
  ⟨convertPageToPhsics σ page j (P_4K + k), P_4K + k⟩

/-- The unit number that `page_free` computes from an address. -/
def pageNum (σ : PageSys) (ptr : ℕ) : ℕ :=
  ((ptr - (ptr &&& (2 ^ P_16M - 1))) - σ.beginAllocAddr) / 2 ^ P_16M

end PageSys

/-- It is the one that `page_free` goes on with. -/
theorem pageFree_pageNum (ptr : ℕ) (σ : PageSys) :
    pageFree ptr σ =
      if σ.pageNum ptr ≥ σ.realPageNum then some σ
      else
        (σ.lockPage (σ.pageNum ptr)).map fun σ₁ =>
          (freeSpaceInPage ptr (σ₁.pagePool (σ.pageNum ptr)) P_16M 1 σ₁).unlockPage
            (σ.pageNum ptr) := rfl

/-! ## What a sound layout is -/

/-- The nodes of unit `i` stand for blocks of the unit, and their addresses lead back to it. -/
structure NodesSound (σ : PageSys) (i : ℕ) : Prop where
  /-- The `int` product of `convert_page_to_phsics` is one. -/
  noOverflow : ∀ h index, AtHeight h index →
    2 ^ (P_4K + h) * (index - powerOfTwo.getD (P_16M - (P_4K + h)) 0) < 2 ^ 31
  aligned : ∀ h index, AtHeight h index →
    (σ.nodeBlock (σ.pagePool i) h index).size ∣ (σ.nodeBlock (σ.pagePool i) h index).addr
  inside : ∀ h index, AtHeight h index → (σ.nodeBlock (σ.pagePool i) h index).Inside (σ.unitBlock i)
  apart : ∀ h index index', AtHeight h index → AtHeight h index' → index ≠ index' →
    (σ.nodeBlock (σ.pagePool i) h index).Apart (σ.nodeBlock (σ.pagePool i) h index')
  left : ∀ h index, AtHeight (h + 1) index →
    σ.nodeBlock (σ.pagePool i) h (leftBranch index) =
      ⟨(σ.nodeBlock (σ.pagePool i) (h + 1) index).addr, P_4K + h⟩
  right : ∀ h index, AtHeight (h + 1) index →
    σ.nodeBlock (σ.pagePool i) h (rightBranch index) =
      ⟨(σ.nodeBlock (σ.pagePool i) (h + 1) index).addr + 2 ^ (P_4K + h), P_4K + h⟩
  pageNum : ∀ h index, AtHeight h index → ∀ ptr,
    (σ.nodeBlock (σ.pagePool i) h index).addr ≤ ptr →
    ptr < (σ.nodeBlock (σ.pagePool i) h index).addr + (σ.nodeBlock (σ.pagePool i) h index).size →
    σ.pageNum ptr = i

/-- The trees, the units and the heap `[start, stop)` lie as they should. -/
structure LayoutSound (start stop : ℕ) (σ : PageSys) : Prop where
  beginAllocAddr : σ.beginAllocAddr = σ.beginPageAddr + PHSICS_UNIT
  realPageNum : σ.realPageNum = (stop - σ.beginAllocAddr) / PHSICS_UNIT
  /-- `page_pool` and `page_locks` have `MAX_PAGE_NUM + 1` entries. -/
  arrays : σ.realPageNum ≤ MAX_PAGE_NUM + 1
  treesInside : ∀ i < σ.realPageNum, σ.beginPageAddr ≤ σ.pagePool i ∧
    σ.pagePool i + MAX_PAGE_SIZE ≤ σ.beginPageAddr + PHSICS_UNIT
  treesApart : ∀ i < σ.realPageNum, ∀ j < σ.realPageNum, i ≠ j →
    Apart (σ.pagePool i) MAX_PAGE_SIZE (σ.pagePool j) MAX_PAGE_SIZE
  /-- The first 16 MiB meet no unit. -/
  unitsApart : ∀ i < σ.realPageNum, Apart σ.beginPageAddr PHSICS_UNIT (σ.unitStart i) PHSICS_UNIT
  /-- The units are the whole ones that the heap has room for. -/
  unitsInside : start ≤ σ.beginPageAddr ∧
    ∀ i, i < σ.realPageNum ↔ σ.unitStart i + PHSICS_UNIT ≤ stop
  nodes : ∀ i < σ.realPageNum, NodesSound σ i

/-! ## The nodes of a unit -/

section Nodes

variable {σ : PageSys} {i : ℕ}

/-- Where the block of a node lies. -/
theorem nodeBlock_addr (hpool : σ.pagePool i = σ.beginPageAddr + i * MAX_PAGE_SIZE) {h index : ℕ}
    (hi : AtHeight h index) :
    (σ.nodeBlock (σ.pagePool i) h index).addr =
      σ.unitStart i + 2 ^ (P_4K + h) * (index - 2 ^ (12 - h)) := by
  have hh := hi.1
  have hlevel : P_16M - (P_4K + h) = 12 - h := by
    simp only [P_16M, P_4K]
    omega
  have hgap : (σ.beginPageAddr + i * MAX_PAGE_SIZE - σ.beginPageAddr) / MAX_PAGE_SIZE = i := by
    rw [Nat.add_sub_cancel_left]
    exact Nat.mul_div_cancel _ (by decide)
  simp only [PageSys.nodeBlock, convertPageToPhsics, hpool, hgap, hlevel]
  rw [powerOfTwo_getD (by omega)]
  rfl

/-- The nodes of a class cover the unit. -/
theorem node_offset_le {h index : ℕ} (hi : AtHeight h index) :
    2 ^ (P_4K + h) * (index - 2 ^ (12 - h)) + 2 ^ (P_4K + h) ≤ 2 ^ P_16M := by
  rcases hi with ⟨hh, hlow, hhigh⟩
  have hdouble : 2 ^ (13 - h) = 2 ^ (12 - h) + 2 ^ (12 - h) := by
    rw [← Nat.two_mul, ← Nat.pow_succ']
    congr 1
    omega
  have hgap : index - 2 ^ (12 - h) + 1 ≤ 2 ^ (12 - h) := by omega
  calc 2 ^ (P_4K + h) * (index - 2 ^ (12 - h)) + 2 ^ (P_4K + h)
      = 2 ^ (P_4K + h) * (index - 2 ^ (12 - h) + 1) := (Nat.mul_succ _ _).symm
    _ ≤ 2 ^ (P_4K + h) * 2 ^ (12 - h) := Nat.mul_le_mul_left _ hgap
    _ = 2 ^ P_16M := by
        rw [← Nat.pow_add]
        congr 1
        simp only [P_4K, P_16M]
        omega

/-- A block in front of another one of its level ends before that begins. -/
theorem node_offset_lt {h j k : ℕ} (hj : 2 ^ (12 - h) ≤ j) (hlt : j < k) :
    2 ^ (P_4K + h) * (j - 2 ^ (12 - h)) + 2 ^ (P_4K + h) ≤
      2 ^ (P_4K + h) * (k - 2 ^ (12 - h)) := by
  rw [← Nat.mul_succ]
  exact Nat.mul_le_mul_left _ (by omega)

theorem nodesSound (hpool : σ.pagePool i = σ.beginPageAddr + i * MAX_PAGE_SIZE)
    (halign : 2 ^ P_16M ∣ σ.beginAllocAddr) : NodesSound σ i where
  noOverflow h index hi := by
    have hle := node_offset_le hi
    have hh := hi.1
    have hlevel : P_16M - (P_4K + h) = 12 - h := by
      simp only [P_16M, P_4K]
      omega
    rw [hlevel, powerOfTwo_getD (by omega)]
    exact Nat.lt_of_le_of_lt (Nat.le_of_add_right_le hle) (by decide)
  aligned h index hi := by
    rw [nodeBlock_addr hpool hi]
    have hh := hi.1
    have hpow : 2 ^ (P_4K + h) ∣ 2 ^ P_16M := Nat.pow_dvd_pow 2 (by simp only [P_4K, P_16M]; omega)
    have hunit : 2 ^ P_16M ∣ σ.unitStart i := Nat.dvd_add halign (Nat.dvd_mul_left _ _)
    exact Nat.dvd_add (hpow.trans hunit) (Nat.dvd_mul_right _ _)
  inside h index hi := by
    have hle := node_offset_le hi
    constructor
    · rw [nodeBlock_addr hpool hi]
      exact Nat.le_add_right _ _
    · rw [nodeBlock_addr hpool hi, Nat.add_assoc]
      exact Nat.add_le_add_left hle _
  apart h j k hj hk hne := by
    unfold Block.Apart Buddy.Apart
    rw [nodeBlock_addr hpool hj, nodeBlock_addr hpool hk, Nat.add_assoc, Nat.add_assoc]
    rcases Nat.lt_or_gt_of_ne hne with hlt | hgt
    · exact Or.inl (Nat.add_le_add_left (node_offset_lt hj.2.1 hlt) _)
    · exact Or.inr (Nat.add_le_add_left (node_offset_lt hk.2.1 hgt) _)
  left h index hi := congrArg (fun a => (⟨a, P_4K + h⟩ : Block)) (convert_left hi)
  right h index hi := congrArg (fun a => (⟨a, P_4K + h⟩ : Block)) (convert_right hi)
  pageNum h index hi ptr hlow hhigh := by
    have hle := node_offset_le hi
    rw [nodeBlock_addr hpool hi] at hlow hhigh
    have hsize : (σ.nodeBlock (σ.pagePool i) h index).size = 2 ^ (P_4K + h) := rfl
    have hunit : 2 ^ P_16M ∣ σ.unitStart i := Nat.dvd_add halign (Nat.dvd_mul_left _ _)
    rw [hsize] at hhigh
    generalize 2 ^ (P_4K + h) * (index - 2 ^ (12 - h)) = o at hlow hhigh hle
    -- the address of the unit is the address with its low 24 bits cleared
    have hbase : ptr - ptr % 2 ^ P_16M = σ.unitStart i := by
      rcases hunit with ⟨q, hq⟩
      rw [sub_mod_eq, hq, Nat.mul_comm]
      congr 1
      rw [hq] at hlow hhigh
      simp only [P_16M] at hlow hhigh hle ⊢
      omega
    unfold PageSys.pageNum
    rw [land_mask, hbase, PageSys.unitStart, Nat.add_sub_cancel_left]
    exact Nat.mul_div_cancel _ (Nat.two_pow_pos _)

end Nodes

/-! ## The heap -/

/-- `page_init` writes the nodes 1 to 8191 of the tree it is given, and nothing else. -/
def InitConfined : Prop :=
  ∀ page σ, ∃ mem, pageInit page σ = { σ with mem := mem } ∧
    ∀ a, (∀ index, 1 ≤ index → index ≤ 8191 → a ≠ page + index) → mem a = σ.mem a

theorem initConfined : InitConfined := by
  intro page σ
  refine ⟨_, pageInit_eq page σ, fun a ha => ?_⟩
  refine if_neg fun ⟨hlow, hhigh⟩ => ?_
  simp only [PAGE_NODE_NUM] at hhigh
  exact ha (a - page) (by omega) (by omega) (by omega)

/-- The addresses that `page_system_init` fixes, and how many trees it lays out. -/
theorem pageSystemInit_layout (beginAddr endAddr : ℕ) (σ : PageSys) :
    let σ' := pageSystemInit beginAddr endAddr σ
    let k := (endAddr - (beginAddr + PHSICS_UNIT)) / PHSICS_UNIT
    σ'.beginPageAddr = beginAddr ∧ σ'.beginAllocAddr = beginAddr + PHSICS_UNIT ∧
    σ'.realPageNum = k ∧ ∀ j < k, σ'.pagePool j = beginAddr + j * MAX_PAGE_SIZE := by
  have heq : pageSystemInit beginAddr endAddr σ =
      pageSystemInitLoop endAddr (beginAddr + PHSICS_UNIT) beginAddr 0
        { σ with beginPageAddr := beginAddr, beginAllocAddr := beginAddr + PHSICS_UNIT } := rfl
  rw [heq]
  obtain ⟨hpage, halloc, -, hnum, -, hpool, -⟩ := pageSystemInitLoop_spec endAddr
    (beginAddr + PHSICS_UNIT) beginAddr 0
    { σ with beginPageAddr := beginAddr, beginAllocAddr := beginAddr + PHSICS_UNIT }
  refine ⟨hpage, halloc, hnum.trans (Nat.zero_add _), fun j hj => ?_⟩
  have hj' := hpool j hj
  rw [Nat.zero_add] at hj'
  exact hj'

/-- With the addresses so fixed the layout is sound, if the heap ends at 4 GiB at most. -/
theorem layoutSound_of_layout {start stop base : ℕ} {σ : PageSys} (hstart : start ≤ base)
    (hdvd : 2 ^ P_16M ∣ base) (hstop : stop ≤ 2 ^ 32) (hpage : σ.beginPageAddr = base)
    (halloc : σ.beginAllocAddr = base + PHSICS_UNIT)
    (hnum : σ.realPageNum = (stop - (base + PHSICS_UNIT)) / PHSICS_UNIT)
    (hpool : ∀ j < σ.realPageNum, σ.pagePool j = base + j * MAX_PAGE_SIZE) :
    LayoutSound start stop σ := by
  have hle : σ.realPageNum ≤ MAX_PAGE_NUM + 1 := by
    rw [hnum]
    simp only [PHSICS_UNIT, MAX_PAGE_NUM]
    omega
  refine ⟨by rw [halloc, hpage], by rw [hnum, halloc], hle, ?_, ?_, ?_, ⟨by rwa [hpage], ?_⟩, ?_⟩
  · intro i hi
    rw [hpool i hi, hpage]
    simp only [MAX_PAGE_SIZE, PAGE_NODE_NUM, PHSICS_UNIT, MAX_PAGE_NUM] at hle ⊢
    omega
  · intro i hi j hj hij
    rw [hpool i hi, hpool j hj]
    unfold Buddy.Apart
    simp only [MAX_PAGE_SIZE, PAGE_NODE_NUM]
    omega
  · intro i _
    rw [PageSys.unitStart, halloc, hpage]
    exact Or.inl (Nat.le_add_right _ _)
  · intro i
    rw [PageSys.unitStart, halloc, hnum]
    simp only [PHSICS_UNIT]
    omega
  · intro i hi
    refine nodesSound (by rw [hpool i hi, hpage]) ?_
    rw [halloc]
    exact Nat.dvd_add hdvd dvd_rfl

/-- Whatever the heap and its memory, `pmm_init` leaves a sound layout. -/
theorem layoutSound_init (start stop : ℕ) (σ : PageSys) (hstop : stop ≤ 2 ^ 32) :
    LayoutSound start stop (pageSystemInit (alignPtr start 24) stop σ) ∧ InitConfined := by
  obtain ⟨hpage, halloc, hnum, hpool⟩ := pageSystemInit_layout (alignPtr start 24) stop σ
  refine ⟨layoutSound_of_layout (le_alignPtr start 24) (dvd_alignPtr start 24) hstop hpage halloc hnum
    ?_, initConfined⟩
  rwa [hnum]

/-- A heap that fills the 4 GiB has 254 units behind the trees. -/
theorem layoutSound_init_4G :
    LayoutSound (2 ^ 20) (2 ^ 32) (pageSystemInit (2 ^ 24) (2 ^ 32) (PageSys.boot fun _ => 0)) ∧
      (pageSystemInit (2 ^ 24) (2 ^ 32) (PageSys.boot fun _ => 0)).realPageNum = 254 := by
  have halign : alignPtr (2 ^ 20) 24 = 2 ^ 24 := by decide
  have hsound := (layoutSound_init (2 ^ 20) (2 ^ 32) (PageSys.boot fun _ => 0) (Nat.le_refl _)).1
  rw [halign] at hsound
  refine ⟨hsound, ?_⟩
  rw [hsound.realPageNum, (pageSystemInit_layout _ _ _).2.1]
  decide

end OsLab
