import OsLab.Common
import Mathlib.Logic.Function.Basic

/-! # The page allocator (`page.c`, `page.h`)

Every 16 MiB unit of the heap has a tree of `PAGE_NODE_NUM` bytes in the first
16 MiB: node 1 is the whole unit, the children of node `i` are `2 i` and
`2 i + 1`, the leaves are 4 KiB pages. A node's byte is the class of the largest
block that can be had below it, or `FULL_USED`, or `HAVE_BUBBLE`.

The build modelled is the default one, without `DEBUG`: where the source has
`#ifdef DEBUG assert(..) #else if(..) return .. #endif`, the second form is taken.
-/

namespace OsLab

/-! ## Constants -/

def P_4K : ℕ := 12
def P_16M : ℕ := 24
def P_REFUSE : ℕ := 25
/-- `1 << 24`. -/
def PHSICS_UNIT : ℕ := 2 ^ 24
/-- `1 << 13`. -/
def PAGE_NODE_NUM : ℕ := 2 ^ 13
/-- `PAGE_NODE_NUM * sizeof(Page_Node)`. -/
def MAX_PAGE_SIZE : ℕ := PAGE_NODE_NUM * 1
/-- `(1 << 8) - 1`. -/
def MAX_PAGE_NUM : ℕ := 2 ^ 8 - 1
def HAVE_BUBBLE : ℕ := 1
def FULL_USED : ℕ := 0

/-- `power_of_two`. -/
def powerOfTwo : List ℕ := [1, 2, 4, 8, 16, 32, 64, 128, 256, 512, 1024, 2048, 4096]

/-- `trans_page_size`. -/
def transPageSize (size : ℕ) : ℕ := transSize P_4K P_REFUSE size

/-! ## State -/

/-- The globals of `page.c` and the memory that holds the trees, one cell a byte. -/
structure PageSys where
  beginPageAddr : ℕ
  beginAllocAddr : ℕ
  realPageNum : ℕ
  pagePool : ℕ → ℕ
  pageLocks : ℕ → ℕ
  mem : ℕ → ℕ

namespace PageSys

/-- `_page[_index]`. -/
def node (σ : PageSys) (page : ℕ) (index : ℕ) : ℕ := σ.mem (page + index)

/-- `_page[_index] = v`. -/
def setNode (σ : PageSys) (page : ℕ) (index v : ℕ) : PageSys :=
  { σ with mem := Function.update σ.mem (page + index) v }

/-- `_lock(&(page_locks[i]))`. -/
def lockPage (σ : PageSys) (i : ℕ) : Option PageSys :=
  (lock (σ.pageLocks i)).map fun v => { σ with pageLocks := Function.update σ.pageLocks i v }

/-- `_unlock(&(page_locks[i]))`. -/
def unlockPage (σ : PageSys) (i : ℕ) : PageSys :=
  { σ with pageLocks := Function.update σ.pageLocks i unlock }

end PageSys

/-! ## Initialisation -/

/-- The inner loop of `page_init`: `i` nodes from `index` on get the value `size`. -/
def pageInitLevel (page : ℕ) (size : ℕ) : ℕ → ℕ → PageSys → ℕ × PageSys
  | 0, index, σ => (index, σ)
  | i + 1, index, σ => pageInitLevel page size i (index + 1) (σ.setNode page index size)

/-- The outer loop of `page_init`, from class `size` down to `P_4K`. -/
def pageInitFrom (page : ℕ) : ℕ → ℕ → PageSys → PageSys
  | 0, _, σ => σ
  | s + 1, index, σ =>
      if P_4K ≤ s + 1 then
        let p := pageInitLevel page (s + 1) (2 ^ (P_16M - (s + 1))) index σ
        pageInitFrom page s p.1 p.2
      else σ

/-- `page_init`. -/
def pageInit (page : ℕ) (σ : PageSys) : PageSys := pageInitFrom page P_16M 1 σ

/-- The loop of `page_system_init`. -/
def pageSystemInitLoop (endAddr allocAddr pageAddr index : ℕ) (σ : PageSys) : PageSys :=
  if h : allocAddr + PHSICS_UNIT ≤ endAddr then
    pageSystemInitLoop endAddr (allocAddr + PHSICS_UNIT) (pageAddr + MAX_PAGE_SIZE) (index + 1)
      (pageInit pageAddr { σ with pagePool := Function.update σ.pagePool index pageAddr })
  else { σ with realPageNum := index }
termination_by endAddr - allocAddr
decreasing_by
  simp only [PHSICS_UNIT] at h ⊢
  omega

/-- `page_system_init`. -/
def pageSystemInit (beginAddr endAddr : ℕ) (σ : PageSys) : PageSys :=
  let σ := { σ with
    beginPageAddr := beginAddr
    beginAllocAddr := beginAddr + PHSICS_UNIT }
  pageSystemInitLoop endAddr σ.beginAllocAddr σ.beginPageAddr 0 σ

/-! ## Allocation -/

/-- `left_branch`. -/
def leftBranch (index : ℕ) : ℕ := index * 2

/-- `right_branch`. -/
def rightBranch (index : ℕ) : ℕ := index * 2 + 1

/-- `convert_page_to_phsics`: the address of the block of node `index`, whose class is
`baseSize`, of the tree at `page`. -/
def convertPageToPhsics (σ : PageSys) (page : ℕ) (index baseSize : ℕ) : ℕ :=
  let pageGapNum := (page - σ.beginPageAddr) / MAX_PAGE_SIZE
  let phsicsOffset := pageGapNum * PHSICS_UNIT
  let phsicsBeginAddr := σ.beginAllocAddr + phsicsOffset
  let nodeGapNum := index - powerOfTwo.getD (P_16M - baseSize) 0
  let nodeOffset := 2 ^ baseSize * nodeGapNum
  phsicsBeginAddr + nodeOffset

/-- The branch of `get_space_in_page` for a node of the class asked for: it is
given out if it is wholly free. -/
def takeNode (page : ℕ) (reqSize baseSize index : ℕ) (σ : PageSys) : Option ℕ × PageSys :=
  if σ.node page index = reqSize then
    (some (convertPageToPhsics σ page index baseSize), σ.setNode page index FULL_USED)
  else (none, σ)

/-- `get_space_in_page`, by recursion on `base_size`. -/
def getSpaceInPage (page : ℕ) (reqSize : ℕ) : ℕ → ℕ → PageSys → Option ℕ × PageSys
  | 0, index, σ =>
      if page = 0 ∨ reqSize > 0 ∨ index ≥ PAGE_NODE_NUM then (none, σ)
      else takeNode page reqSize 0 index σ
  | b + 1, index, σ =>
      if page = 0 ∨ reqSize > b + 1 ∨ index ≥ PAGE_NODE_NUM then (none, σ)
      else if b + 1 ≤ reqSize then takeNode page reqSize (b + 1) index σ
      else
        let left := leftBranch index
        let right := rightBranch index
        let r :=
          if σ.node page left ≥ reqSize then getSpaceInPage page reqSize b left σ
          else getSpaceInPage page reqSize b right σ
        match r with
        | (none, σ₁) => (none, σ₁)
        | (some addr, σ₁) =>
            (some addr,
              -- a node that had just one block of this size left is not used any further
              if σ₁.node page index = reqSize then σ₁.setNode page index HAVE_BUBBLE
              else
                σ₁.setNode page index
                  (if σ₁.node page left > σ₁.node page right then σ₁.node page left
                    else σ₁.node page right))

/-- `alloc_space_from_page`. -/
def allocSpaceFromPage (page : ℕ) (reqSize : ℕ) (σ : PageSys) : Option ℕ × PageSys :=
  match getSpaceInPage page reqSize P_16M 1 σ with
  | (none, σ₁) => (none, σ₁)
  | (some addr, σ₁) => if IsAligned addr reqSize then (some addr, σ₁) else (none, σ₁)

/-- The search loop of `page_alloc` from unit `i` on, with `n` units left. The
unit it answers stays locked. -/
def findPage (reqSize : ℕ) : ℕ → ℕ → PageSys → Option (Option ℕ × PageSys)
  | 0, _, σ => some (none, σ)
  | n + 1, i, σ =>
      (σ.lockPage i).bind fun σ₁ =>
        if σ₁.node (σ₁.pagePool i) 1 ≥ reqSize then some (some i, σ₁)
        else findPage reqSize n (i + 1) (σ₁.unlockPage i)

/-- The part of `page_alloc` behind its loop: it allocates in the unit that was found, and
releases its lock. -/
def allocFound (reqSize : ℕ) : Option ℕ × PageSys → Option (Option ℕ × PageSys)
  | (none, σ) => some (none, σ)
  | (some i, σ) =>
      if i ≥ σ.realPageNum then some (none, σ)
      else
        let r := allocSpaceFromPage (σ.pagePool i) reqSize σ
        some (r.1, r.2.unlockPage i)

/-- `page_alloc`, run alone: `none` if it spins for ever on a lock, else the
address it returns (`none` for `NULL`) and the state afterwards. -/
def pageAlloc (size : ℕ) (σ : PageSys) : Option (Option ℕ × PageSys) :=
  let reqSize := transPageSize size
  if reqSize = P_REFUSE then some (none, σ)
  else if reqSize > P_16M ∨ reqSize < P_4K then some (none, σ)
  else (findPage reqSize σ.realPageNum 0 σ).bind (allocFound reqSize)

/-! ## Release -/

/-- `free_space_in_page`, by recursion on `base_size`. -/
def freeSpaceInPage (ptr page : ℕ) : ℕ → ℕ → PageSys → PageSys
  | 0, _, σ => σ
  | b + 1, index, σ =>
      if index ≥ PAGE_NODE_NUM ∨ b + 1 < P_4K ∨ b + 1 = P_REFUSE then σ
      else
        let phsicsAddr := convertPageToPhsics σ page index (b + 1)
        if phsicsAddr + 2 ^ (b + 1) > ptr then σ
        else
          let left := leftBranch index
          let right := rightBranch index
          let merge (σ₁ : PageSys) : PageSys :=
            if σ₁.node page left = b ∧ σ₁.node page right = b then σ₁.setNode page index (b + 1)
            else
              σ₁.setNode page index
                (if σ₁.node page left > σ₁.node page right then σ₁.node page left
                  else σ₁.node page right)
          if phsicsAddr = ptr then
            if σ.node page index = FULL_USED then σ.setNode page index (b + 1)
            else merge (freeSpaceInPage ptr page b left σ)
          else if phsicsAddr + 2 ^ b > ptr then merge (freeSpaceInPage ptr page b left σ)
          else merge (freeSpaceInPage ptr page b right σ)

/-- `page_free`, for a `ptr` in the part of the heap that is handed out; run alone. -/
def pageFree (ptr : ℕ) (σ : PageSys) : Option PageSys :=
  let mask := 2 ^ P_16M - 1
  let phsicsBeginAddr := ptr - (ptr &&& mask)
  let pageNum := (phsicsBeginAddr - σ.beginAllocAddr) / 2 ^ P_16M
  if pageNum ≥ σ.realPageNum then some σ
  else
    (σ.lockPage pageNum).map fun σ₁ =>
      (freeSpaceInPage ptr (σ₁.pagePool pageNum) P_16M 1 σ₁).unlockPage pageNum

end OsLab
