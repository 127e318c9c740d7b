import OsLab.Page.Tree

/-! # `page_init` and `page_system_init`

`page_init` writes exactly the nodes 1 to 8191 of its tree, and leaves them
pristine. `page_system_init` lays out one tree for every whole 16 MiB unit of
the heap behind the first one.
-/

namespace OsLab

open Buddy

/-! ## `page_init` -/

theorem pageInitLevel_eq (page size n index : ℕ) (σ : PageSys) :
    pageInitLevel page size n index σ =
      (index + n, { σ with
        mem := fun a => if page + index ≤ a ∧ a < page + index + n then size else σ.mem a }) := by
  induction n generalizing index σ with
  | zero =>
      have : ∀ a, ¬ (page + index ≤ a ∧ a < page + index) := fun a => by omega
      simp only [pageInitLevel, Nat.add_zero, this, if_false]
  | succ n ih =>
      rw [pageInitLevel, ih]
      refine Prod.ext (by simp only; omega) ?_
      simp only [PageSys.setNode, PageSys.mk.injEq, true_and]
      funext a
      rcases Nat.lt_trichotomy a (page + index) with hlt | rfl | hgt
      · rw [if_neg (by omega), if_neg (by omega), Function.update_of_ne (by omega)]
      · rw [if_neg (by omega), if_pos (by omega), Function.update_self]
      · by_cases hin : a < page + index + (n + 1)
        · rw [if_pos (by omega), if_pos (by omega)]
        · rw [if_neg (by omega), if_neg (by omega), Function.update_of_ne (by omega)]

theorem pageInitFrom_eq (page : ℕ) {s : ℕ} (hs : 11 ≤ s) (hs' : s ≤ P_16M) (σ : PageSys) :
    pageInitFrom page s (2 ^ (P_16M - s)) σ =
      { σ with
        mem := fun a =>
          if page + 2 ^ (P_16M - s) ≤ a ∧ a < page + PAGE_NODE_NUM then
            P_16M - Nat.log2 (a - page)
          else σ.mem a } := by
  induction s, hs using Nat.le_induction generalizing σ with
  | base =>
      have : ∀ a, ¬ (page + 2 ^ (P_16M - 11) ≤ a ∧ a < page + PAGE_NODE_NUM) := by
        intro a
        simp only [P_16M, PAGE_NODE_NUM]
        omega
      simp only [this, if_false]
      rfl
  | succ s hs ih =>
      have hpow : 2 ^ (P_16M - s) = 2 ^ (P_16M - (s + 1)) + 2 ^ (P_16M - (s + 1)) := by
        rw [← Nat.two_mul, ← Nat.pow_succ']
        congr 1
        omega
      have hbound : 2 ^ (P_16M - s) ≤ PAGE_NODE_NUM :=
        Nat.pow_le_pow_right (by omega) (by simp only [P_16M]; omega)
      have hpos := Nat.two_pow_pos (P_16M - (s + 1))
      rw [pageInitFrom, if_pos (by simp only [P_4K]; omega), pageInitLevel_eq]
      simp only
      rw [← hpow, ih (by omega)]
      simp only [PageSys.mk.injEq, true_and]
      funext a
      by_cases hlow : page + 2 ^ (P_16M - s) ≤ a ∧ a < page + PAGE_NODE_NUM
      · rw [if_pos hlow, if_pos (by omega)]
      · rw [if_neg hlow]
        by_cases hlev : page + 2 ^ (P_16M - (s + 1)) ≤ a ∧
            a < page + 2 ^ (P_16M - (s + 1)) + 2 ^ (P_16M - (s + 1))
        · -- the level of class `s + 1`: the indices with that logarithm
          have hlog : Nat.log2 (a - page) = P_16M - (s + 1) := by
            rw [Nat.log2_eq_iff (by omega)]
            rw [Nat.pow_succ]
            omega
          rw [if_pos hlev, if_pos (by omega), hlog]
          omega
        · rw [if_neg hlev, if_neg (by omega)]

/-- `page_init` writes the nodes 1 to 8191 and nothing else. -/
theorem pageInit_eq (page : ℕ) (σ : PageSys) :
    pageInit page σ =
      { σ with
        mem := fun a =>
          if page + 1 ≤ a ∧ a < page + PAGE_NODE_NUM then P_16M - Nat.log2 (a - page)
          else σ.mem a } :=
  pageInitFrom_eq page (by decide) (Nat.le_refl _) σ

@[simp] theorem pageInit_beginPageAddr (page : ℕ) (σ : PageSys) :
    (pageInit page σ).beginPageAddr = σ.beginPageAddr := by rw [pageInit_eq]

@[simp] theorem pageInit_beginAllocAddr (page : ℕ) (σ : PageSys) :
    (pageInit page σ).beginAllocAddr = σ.beginAllocAddr := by rw [pageInit_eq]

@[simp] theorem pageInit_pageLocks (page : ℕ) (σ : PageSys) :
    (pageInit page σ).pageLocks = σ.pageLocks := by rw [pageInit_eq]

@[simp] theorem pageInit_pagePool (page : ℕ) (σ : PageSys) :
    (pageInit page σ).pagePool = σ.pagePool := by rw [pageInit_eq]

theorem pageInit_mem (page : ℕ) (σ : PageSys) (a : ℕ) :
    (pageInit page σ).mem a =
      if page + 1 ≤ a ∧ a < page + PAGE_NODE_NUM then P_16M - Nat.log2 (a - page)
      else σ.mem a := by rw [pageInit_eq]

/-- The values of `page_init` make a pristine tree. -/
theorem pristine_of_log2 {t : ℕ → ℕ} (ht : ∀ j, 1 ≤ j → j < PAGE_NODE_NUM →
    t j = P_16M - Nat.log2 j) {h i : ℕ} (hi : AtHeight h i) : Pristine t h i := by
  have hval : ∀ {h k}, AtHeight h k → t k = P_4K + h :=
    fun hk => (ht _ hk.pos hk.lt).trans hk.class_eq
  induction h generalizing i with
  | zero => exact hval hi
  | succ h ih => exact ⟨hval hi, ih hi.left, ih hi.right⟩

/-- A tree with the values of `page_init` is wholly free. -/
theorem rep_free_of_log2 {t : ℕ → ℕ} (ht : ∀ j, 1 ≤ j → j < PAGE_NODE_NUM →
    t j = P_16M - Nat.log2 j) : Rep t (.free : BuddyTree 12) 1 :=
  rep_free.2 (pristine_of_log2 ht atHeight_root)

/-! ## `page_system_init` -/

/-- The heap `[start, stop)` handed to `pmm_init`, as `__am_heap_init` gives it: it starts
behind the kernel image, and its end comes from a 32-bit number of CMOS memory units. -/
structure Area where
  start : ℕ
  stop : ℕ
  start_pos : 0 < start
  start_le : start ≤ stop
  stop_le : stop ≤ 2 ^ 32

/-- The state before `pmm_init`: the globals are zero, memory holds anything. -/
def PageSys.boot (mem : ℕ → ℕ) : PageSys where
  beginPageAddr := 0
  beginAllocAddr := 0
  realPageNum := 0
  pagePool := fun _ => 0
  pageLocks := fun _ => spinLockInit
  mem := mem

/-- `page_system_init` as `pmm_init` calls it. -/
def pageSystemStart (heap : Area) (mem : ℕ → ℕ) : PageSys :=
  pageSystemInit (alignPtr heap.start 24) heap.stop (PageSys.boot mem)

/-- The first address that is handed out. -/
def Area.base (heap : Area) : ℕ := alignPtr heap.start 24 + PHSICS_UNIT

/-- The number of whole 16 MiB units from `Area.base` to the end of the heap. -/
def Area.units (heap : Area) : ℕ := (heap.stop - heap.base) / PHSICS_UNIT

/-- The address of unit `i`. -/
def Area.unitAddr (heap : Area) (i : ℕ) : ℕ := heap.base + i * PHSICS_UNIT

/-- The address of the tree of unit `i`. -/
def Area.treeAddr (heap : Area) (i : ℕ) : ℕ := alignPtr heap.start 24 + i * MAX_PAGE_SIZE

/-- What `page_system_init` fixes for good: the addresses and the number of units. -/
structure PageSys.Layout (heap : Area) (σ : PageSys) : Prop where
  beginPageAddr : σ.beginPageAddr = alignPtr heap.start 24
  beginAllocAddr : σ.beginAllocAddr = heap.base
  realPageNum : σ.realPageNum = heap.units
  pagePool : ∀ i < heap.units, σ.pagePool i = heap.treeAddr i

/-- What the loop of `page_system_init` does from some unit on. -/
theorem pageSystemInitLoop_spec (endAddr allocAddr pageAddr index : ℕ) (σ : PageSys) :
    let σ' := pageSystemInitLoop endAddr allocAddr pageAddr index σ
    let k := (endAddr - allocAddr) / PHSICS_UNIT
    σ'.beginPageAddr = σ.beginPageAddr ∧ σ'.beginAllocAddr = σ.beginAllocAddr ∧
    σ'.pageLocks = σ.pageLocks ∧ σ'.realPageNum = index + k ∧
    (∀ i < index, σ'.pagePool i = σ.pagePool i) ∧
    (∀ j < k, σ'.pagePool (index + j) = pageAddr + j * MAX_PAGE_SIZE) ∧
    (∀ a < pageAddr, σ'.mem a = σ.mem a) ∧
    (∀ j < k, ∀ i, 1 ≤ i → i < PAGE_NODE_NUM →
      σ'.mem (pageAddr + j * MAX_PAGE_SIZE + i) = P_16M - Nat.log2 i) := by
  induction allocAddr, pageAddr, index, σ using pageSystemInitLoop.induct endAddr with
  | case1 allocAddr pageAddr index σ hle ih =>
      rw [pageSystemInitLoop, dif_pos hle]
      simp only at ih ⊢
      have hk : (endAddr - allocAddr) / PHSICS_UNIT =
          (endAddr - (allocAddr + PHSICS_UNIT)) / PHSICS_UNIT + 1 := by
        simp only [PHSICS_UNIT] at hle ⊢
        omega
      rw [hk]
      generalize (endAddr - (allocAddr + PHSICS_UNIT)) / PHSICS_UNIT = k at ih ⊢
      rcases ih with ⟨h1, h2, h3, h4, h5, h6, h7, h8⟩
      rw [pageInit_beginPageAddr] at h1
      rw [pageInit_beginAllocAddr] at h2
      rw [pageInit_pageLocks] at h3
      rw [pageInit_pagePool] at h5
      refine ⟨h1, h2, h3, by rw [h4]; omega, ?_, ?_, ?_, ?_⟩
      · intro i hi
        rw [h5 i (by omega)]
        exact Function.update_of_ne (by omega) _ _
      · intro j hj
        cases j with
        | zero =>
            rw [show index + 0 = index from rfl, h5 index (by omega), Nat.zero_mul]
            exact Function.update_self _ _ _
        | succ j =>
            have := h6 j (by omega)
            rw [show index + (j + 1) = index + 1 + j by omega, this]
            ring
      · intro a ha
        rw [h7 a (by omega), pageInit_mem, if_neg (by omega)]
      · intro j hj i hi1 hi2
        cases j with
        | zero =>
            have hlt : pageAddr + i < pageAddr + MAX_PAGE_SIZE := by
              simp only [MAX_PAGE_SIZE]
              omega
            rw [show pageAddr + 0 * MAX_PAGE_SIZE = pageAddr by omega, h7 _ hlt, pageInit_mem,
              if_pos (by omega), Nat.add_sub_cancel_left]
        | succ j =>
            have := h8 j (by omega) i hi1 hi2
            rw [← this]
            congr 1
            ring
  | case2 allocAddr pageAddr index σ hle =>
      rw [pageSystemInitLoop, dif_neg hle]
      have hk : (endAddr - allocAddr) / PHSICS_UNIT = 0 := by
        simp only [PHSICS_UNIT] at hle ⊢
        omega
      simp [hk]

section Start

variable (heap : Area) (mem : ℕ → ℕ)

theorem pageSystemStart_eq :
    pageSystemStart heap mem =
      pageSystemInitLoop heap.stop heap.base (alignPtr heap.start 24) 0
        { PageSys.boot mem with
          beginPageAddr := alignPtr heap.start 24
          beginAllocAddr := heap.base } := rfl

theorem layout_start : (pageSystemStart heap mem).Layout heap := by
  rw [pageSystemStart_eq]
  obtain ⟨h1, h2, -, h4, -, h6, -⟩ := pageSystemInitLoop_spec heap.stop heap.base
    (alignPtr heap.start 24) 0
    { PageSys.boot mem with
      beginPageAddr := alignPtr heap.start 24
      beginAllocAddr := heap.base }
  refine ⟨h1, h2, h4.trans (Nat.zero_add _), fun i hi => ?_⟩
  have hpool := h6 i hi
  rw [Nat.zero_add] at hpool
  exact hpool

theorem locks_start (i : ℕ) : (pageSystemStart heap mem).pageLocks i = 0 := by
  rw [pageSystemStart_eq]
  obtain ⟨-, -, h3, -⟩ := pageSystemInitLoop_spec heap.stop heap.base
    (alignPtr heap.start 24) 0
    { PageSys.boot mem with
      beginPageAddr := alignPtr heap.start 24
      beginAllocAddr := heap.base }
  exact congrFun h3 i

/-- After `page_system_init` every node of every tree has the value of `page_init`. -/
theorem node_start {i j : ℕ} (hi : i < heap.units) (hj : 1 ≤ j) (hj' : j < PAGE_NODE_NUM) :
    (pageSystemStart heap mem).node (heap.treeAddr i) j = P_16M - Nat.log2 j := by
  rw [pageSystemStart_eq, PageSys.node, Area.treeAddr]
  obtain ⟨-, -, -, -, -, -, -, h8⟩ := pageSystemInitLoop_spec heap.stop heap.base
    (alignPtr heap.start 24) 0
    { PageSys.boot mem with
      beginPageAddr := alignPtr heap.start 24
      beginAllocAddr := heap.base }
  exact h8 i hi j hj hj'

/-- After `page_system_init` every unit is wholly free. -/
theorem rep_start {i : ℕ} (hi : i < heap.units) :
    Rep ((pageSystemStart heap mem).node (heap.treeAddr i)) (.free : BuddyTree 12) 1 := by
  have hval : ∀ j, 1 ≤ j → j < PAGE_NODE_NUM →
      (pageSystemStart heap mem).node (heap.treeAddr i) j = P_16M - Nat.log2 j := by
    intro j hj hj'
    exact node_start heap mem hi hj hj'
  generalize (pageSystemStart heap mem).node (heap.treeAddr i) = t at hval ⊢
  exact rep_free_of_log2 hval

end Start

/-! ## Facts about the layout -/

theorem Area.dvd_unitAddr (heap : Area) (i : ℕ) : 2 ^ 24 ∣ heap.unitAddr i :=
  Nat.dvd_add (Nat.dvd_add (dvd_alignPtr _ _) dvd_rfl) (Nat.dvd_mul_left _ _)

theorem Area.alignPtr_pos (heap : Area) : 0 < alignPtr heap.start 24 :=
  Nat.lt_of_lt_of_le heap.start_pos (le_alignPtr _ _)

theorem Area.treeAddr_ne_zero (heap : Area) (i : ℕ) : heap.treeAddr i ≠ 0 := by
  have := heap.alignPtr_pos
  simp only [treeAddr]
  omega

/-- There are at most as many units as entries in `page_pool` and `page_locks`. -/
theorem Area.units_le (heap : Area) : heap.units ≤ MAX_PAGE_NUM + 1 := by
  have := heap.stop_le
  unfold units
  simp only [PHSICS_UNIT, MAX_PAGE_NUM]
  omega

/-- The trees lie in the 16 MiB in front of the units. -/
theorem Area.treeAddr_lt (heap : Area) {i : ℕ} (hi : i < heap.units) :
    heap.treeAddr i + MAX_PAGE_SIZE ≤ heap.base := by
  have := heap.units_le
  unfold treeAddr base
  simp only [MAX_PAGE_SIZE, PAGE_NODE_NUM, PHSICS_UNIT, MAX_PAGE_NUM] at this ⊢
  omega

end OsLab
