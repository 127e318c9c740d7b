import OsLab.Page.Basic

/-! # The slab allocator (`slab.c`, `slab.h`) and `kalloc`, `kfree` (`pmm.c`)

A slab is a page of 4 KiB: a header of `sizeof(Slab)` bytes, then blocks of one
size. Headers and the links of the free blocks stand in the same memory as the
page trees and the data of the callers; a field is the cell at its address.

As in `page.c` the build without `DEBUG` is modelled. An operation runs alone
and answers `none` if it does not come back: it spins on a lock, follows `NULL`
or, where it has a loop, its fuel is too small.
-/

namespace OsLab

/-! ## Constants -/

def S_8B : ℕ := 3
def S_64B : ℕ := 6
def S_REFUSE : ℕ := 12
/-- `1 << 12`. -/
def SLAB_SPACE : ℕ := 2 ^ 12
def SLAB_SIZE_OFFSET : ℕ := 3
/-- `sizeof(Slab)`: four 32-bit fields, a pointer, a 32-bit field with its padding, a pointer. -/
def sizeofSlab : ℕ := 40

/-- `trans_slab_size`. -/
def transSlabSize (size : ℕ) : ℕ := transSize S_8B S_REFUSE size

/-! ## State -/

/-- The globals of `slab.c`, those of `page.c` and the memory. -/
structure SlabSys where
  page : PageSys
  slabsOfCpu : ℕ → ℕ → Option ℕ

namespace SlabSys

/-- The cell at `a`. -/
def mem (σ : SlabSys) (a : ℕ) : ℕ := σ.page.mem a

def setMem (σ : SlabSys) (a v : ℕ) : SlabSys :=
  { σ with page := { σ.page with mem := Function.update σ.page.mem a v } }

/-- The pointer at `a`. -/
def ptr (σ : SlabSys) (a : ℕ) : Option ℕ := if σ.mem a = 0 then none else some (σ.mem a)

def setPtr (σ : SlabSys) (a : ℕ) (p : Option ℕ) : SlabSys := σ.setMem a (p.getD 0)

/-- `slabs_of_cpu[cpu][k] = p`. -/
def setSlabsOfCpu (σ : SlabSys) (cpu k : ℕ) (p : Option ℕ) : SlabSys :=
  { σ with
    slabsOfCpu := Function.update σ.slabsOfCpu cpu (Function.update (σ.slabsOfCpu cpu) k p) }

/-! `struct SLAB` and `struct BLOCK`, field by field. -/

def locked (σ : SlabSys) (slab : ℕ) : ℕ := σ.mem slab
def cpuId (σ : SlabSys) (slab : ℕ) : ℕ := σ.mem (slab + 4)
def blockNum (σ : SlabSys) (slab : ℕ) : ℕ := σ.mem (slab + 8)
def type (σ : SlabSys) (slab : ℕ) : ℕ := σ.mem (slab + 12)
def freeList (σ : SlabSys) (slab : ℕ) : Option ℕ := σ.ptr (slab + 16)
def freeBlockNum (σ : SlabSys) (slab : ℕ) : ℕ := σ.mem (slab + 24)
def append (σ : SlabSys) (slab : ℕ) : Option ℕ := σ.ptr (slab + 32)
def next (σ : SlabSys) (block : ℕ) : Option ℕ := σ.ptr block

def setLocked (σ : SlabSys) (slab v : ℕ) : SlabSys := σ.setMem slab v
def setCpuId (σ : SlabSys) (slab v : ℕ) : SlabSys := σ.setMem (slab + 4) v
def setBlockNum (σ : SlabSys) (slab v : ℕ) : SlabSys := σ.setMem (slab + 8) v
def setType (σ : SlabSys) (slab v : ℕ) : SlabSys := σ.setMem (slab + 12) v
def setFreeList (σ : SlabSys) (slab : ℕ) (p : Option ℕ) : SlabSys := σ.setPtr (slab + 16) p
def setFreeBlockNum (σ : SlabSys) (slab v : ℕ) : SlabSys := σ.setMem (slab + 24) v
def setAppend (σ : SlabSys) (slab : ℕ) (p : Option ℕ) : SlabSys := σ.setPtr (slab + 32) p
def setNext (σ : SlabSys) (block : ℕ) (p : Option ℕ) : SlabSys := σ.setPtr block p

/-- `_lock(&(slab->locked))`. -/
def lockSlab (σ : SlabSys) (slab : ℕ) : Option SlabSys :=
  (lock (σ.locked slab)).map (σ.setLocked slab)

/-- `_unlock(&(slab->locked))`. -/
def unlockSlab (σ : SlabSys) (slab : ℕ) : SlabSys := σ.setLocked slab unlock

/-- `_try_lock(&(slab->locked))`. -/
def tryLockSlab (σ : SlabSys) (slab : ℕ) : Bool × SlabSys :=
  ((tryLock (σ.locked slab)).1, σ.setLocked slab (tryLock (σ.locked slab)).2)

end SlabSys

/-! ## `slab_init` -/

/-- `slab_ocupy`: the space the header takes, aligned to the block size and to 64. -/
def slabOcupy (size : ℕ) : ℕ := alignPtr sizeofSlab (if size ≥ S_64B then size else S_64B)

/-- The loop of `slab_init`: `count` blocks from `blockAddr` on go into the free list. -/
def formatBlocks (slab size : ℕ) : ℕ → ℕ → SlabSys → SlabSys
  | 0, _, σ => σ
  | count + 1, blockAddr, σ =>
      let σ := σ.setNext blockAddr (σ.freeList slab)
      let σ := σ.setFreeList slab (some blockAddr)
      formatBlocks slab size count (blockAddr + 2 ^ size) σ

/-- The part of `slab_init` behind its checks: the page at `slab` becomes the head of the list. -/
def formatSlab (cpu size slab : ℕ) (σ : SlabSys) : SlabSys :=
  let σ := σ.setLocked slab spinLockInit
  let σ := σ.setCpuId slab cpu
  let σ := σ.setType slab size
  let σ := σ.setFreeList slab none
  let σ := σ.setBlockNum slab ((SLAB_SPACE - slabOcupy size) >>> size)
  let σ := σ.setFreeBlockNum slab (σ.blockNum slab)
  let σ := formatBlocks slab size (σ.freeBlockNum slab) (slab + slabOcupy size) σ
  let σ := σ.setAppend slab (σ.slabsOfCpu cpu (size - SLAB_SIZE_OFFSET))
  σ.setSlabsOfCpu cpu (size - SLAB_SIZE_OFFSET) (some slab)

/-- `slab_init`. -/
def slabInit (cpu size : ℕ) (σ : SlabSys) : Option (Option ℕ × SlabSys) :=
  (pageAlloc SLAB_SPACE σ.page).map fun r =>
    let σ := { σ with page := r.2 }
    match r.1 with
    | none => (none, σ)
    | some addr => if IsAligned addr 12 then (some addr, formatSlab cpu size addr σ) else (none, σ)

/-- `slab_system_init` for `cpuNum` CPUs. -/
def slabSystemInit (cpuNum : ℕ) (σ : SlabSys) : Option SlabSys :=
  (List.range cpuNum).foldlM (fun σ cpu =>
    (List.range' S_8B (S_REFUSE - S_8B)).foldlM (fun σ size =>
      (slabInit cpu size σ).map Prod.snd) σ) σ

/-! ## `slab_alloc` -/

/-- The loop of `slab_alloc`. It holds the lock of `slab`, and takes that of the next slab before
it releases it; the answer is a slab with a free block, still locked, or `none` behind the last. -/
def findSlab : ℕ → ℕ → SlabSys → Option (Option ℕ × SlabSys)
  | 0, _, _ => none
  | fuel + 1, slab, σ =>
      if σ.freeBlockNum slab > 0 then some (some slab, σ)
      else
        match σ.append slab with
        | none => some (none, σ.unlockSlab slab)
        | some next =>
            (σ.lockSlab next).bind fun σ =>
              let σ := σ.unlockSlab slab
              (σ.append slab).bind fun next => findSlab fuel next σ

/-- The search of `slab_alloc` from the head of the list. -/
def searchSlabs (fuel cpu reqSize : ℕ) (σ : SlabSys) : Option (Option ℕ × SlabSys) :=
  match σ.slabsOfCpu cpu (reqSize - SLAB_SIZE_OFFSET) with
  | none => some (none, σ)
  | some slab => (σ.lockSlab slab).bind (findSlab fuel slab)

/-- The lock and the check that `REQUEST_NEW_SLAB` has after `slab_init`. -/
def lockNewSlab : Option ℕ × SlabSys → Option (Option ℕ × SlabSys)
  | (none, σ) => some (none, σ)
  | (some slab, σ) =>
      (σ.lockSlab slab).map fun σ =>
        if σ.freeBlockNum slab ≤ 0 then (none, σ.unlockSlab slab) else (some slab, σ)

/-- `REQUEST_NEW_SLAB`: without a slab from the search, a new one is made. -/
def requestNewSlab (cpu reqSize : ℕ) : Option ℕ × SlabSys → Option (Option ℕ × SlabSys)
  | (some slab, σ) => some (some slab, σ)
  | (none, σ) => (slabInit cpu reqSize σ).bind lockNewSlab

/-- `alloc_block_from_slab`. -/
def allocBlockFromSlab (slab : ℕ) (σ : SlabSys) : Option (Option ℕ × SlabSys) :=
  if σ.freeBlockNum slab ≤ 0 then some (none, σ)
  else
    (σ.freeList slab).map fun block =>
      let σ := σ.setFreeList slab (σ.next block)
      let σ := σ.setFreeBlockNum slab (σ.freeBlockNum slab - 1)
      (some block, σ)

/-- The end of `slab_alloc`: a block of the locked slab, its unlocking and the check of the
alignment. -/
def takeBlock (reqSize : ℕ) : Option ℕ × SlabSys → Option (Option ℕ × SlabSys)
  | (none, σ) => some (none, σ)
  | (some slab, σ) =>
      (allocBlockFromSlab slab σ).map fun r =>
        (if IsAligned (r.1.getD 0) reqSize then r.1 else none, r.2.unlockSlab slab)

/-- `slab_alloc`: the address it returns (`none` for `NULL`) and the state afterwards. -/
def slabAlloc (fuel cpu size : ℕ) (σ : SlabSys) : Option (Option ℕ × SlabSys) :=
  let reqSize := transSlabSize size
  if reqSize = S_REFUSE then
    (pageAlloc size σ.page).map fun r => (r.1, { σ with page := r.2 })
  else
    ((searchSlabs fuel cpu reqSize σ).bind (requestNewSlab cpu reqSize)).bind (takeBlock reqSize)

/-! ## `slab_free` -/

/-- The loop of `recover_slab`: the slab in front of `slab`, from `prev` on. -/
def findPrev (slab : ℕ) : ℕ → ℕ → SlabSys → Option (Option ℕ)
  | 0, _, _ => none
  | fuel + 1, prev, σ =>
      match σ.append prev with
      | none => some none
      | some toRecover => if toRecover = slab then some (some prev) else findPrev slab fuel toRecover σ

/-- The end of `recover_slab`: unless someone holds `prev`, `slab` is unlinked and its page
returned. Its lock stays taken. -/
def unlinkSlab (prev slab : ℕ) (σ : SlabSys) : Option SlabSys :=
  let t := σ.tryLockSlab prev
  if ¬ t.1 then some (t.2.unlockSlab slab)
  else
    let σ := t.2.setAppend prev (t.2.append slab)
    (pageFree slab σ.page).map fun page => { σ with page := page }.unlockSlab prev

/-- `recover_slab`. -/
def recoverSlab (fuel slab : ℕ) (σ : SlabSys) : Option SlabSys :=
  if σ.freeBlockNum slab < σ.blockNum slab then some (σ.unlockSlab slab)
  else
    let t := σ.tryLockSlab slab
    if t.1 then some (t.2.unlockSlab slab)
    else
      let σ := t.2
      let slabListHead := σ.slabsOfCpu (σ.cpuId slab) (σ.type slab - SLAB_SIZE_OFFSET)
      if slabListHead = some slab then some (σ.unlockSlab slab)
      else
        slabListHead.bind fun head =>
          (findPrev slab fuel head σ).bind fun
            | none => some (σ.unlockSlab slab)
            | some prev => unlinkSlab prev slab σ

/-- The slab that `slab_free` takes a block to belong to. -/
def slabOf (ptr : ℕ) : ℕ := ptr - (ptr &&& (2 ^ 12 - 1))

/-- `slab_free`. -/
def slabFree (fuel ptr : ℕ) (σ : SlabSys) : Option SlabSys :=
  let slab := slabOf ptr
  if ¬ IsAligned slab 12 then some σ
  else
    (σ.lockSlab slab).bind fun σ =>
      let σ := σ.setNext ptr (σ.freeList slab)
      let σ := σ.setFreeList slab (some ptr)
      let σ := σ.setFreeBlockNum slab (σ.freeBlockNum slab + 1)
      if σ.freeBlockNum slab = σ.blockNum slab then recoverSlab fuel slab σ
      else some (σ.unlockSlab slab)

/-! ## `pmm.c` -/

/-- `kalloc` on CPU `cpu`. Interrupts are off meanwhile, so the CPU does not change. -/
def kalloc (fuel cpu size : ℕ) (σ : SlabSys) : Option (Option ℕ × SlabSys) :=
  slabAlloc fuel cpu size σ

/-- `kfree`. -/
def kfree (fuel ptr : ℕ) (σ : SlabSys) : Option SlabSys :=
  if IsAligned ptr 12 then (pageFree ptr σ.page).map fun page => { σ with page := page }
  else slabFree fuel ptr σ

/-- `pmm_init` for a heap `[start, stop)` and `cpuNum` CPUs. -/
def pmmInit (start stop cpuNum : ℕ) (σ : SlabSys) : Option SlabSys :=
  slabSystemInit cpuNum { σ with page := pageSystemInit (alignPtr start 24) stop σ.page }

end OsLab
