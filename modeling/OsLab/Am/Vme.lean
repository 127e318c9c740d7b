import OsLab.Lib.Tables
import OsLab.Lib.Words
import Mathlib.Data.Nat.Bitwise
import Mathlib.Data.Set.Insert
import Mathlib.Logic.Function.Basic

/-! # Page tables (`vme.c`)

An address space is known by the address of its field `ptr`, which holds the address of the
first page table. `mem a` is the word of 64 bits at address `a`. Pages come from
`pgalloc` and go back with `pgfree`, which are given to `vme_init` and keep their
state apart from the pages. A panic is `none`. The configuration is that of x86_64.
-/

namespace OsLab.Vme

def PTE_P : ℕ := 0x001
def PTE_W : ℕ := 0x002
def PTE_U : ℕ := 0x004
def PTE_PS : ℕ := 0x080

def PML4_ADDR : ℕ := 0x1000
def PDPT_ADDR : ℕ := 0x2000

def MMAP_NONE : ℕ := 0
def MMAP_WRITE : ℕ := 2

/-- `struct ptinfo`. -/
structure PtInfo where
  mask : ℕ
  shift : ℕ
  bits : ℕ

/-- `struct mmu_config`. -/
structure MmuConfig where
  pgsize : ℕ
  ptlevels : ℕ
  pgtables : ℕ → PtInfo

def mmu : MmuConfig where
  pgsize := 4096
  ptlevels := 4
  pgtables
    | 1 => ⟨0xff8000000000, 39, 9⟩
    | 2 => ⟨0x007fc0000000, 30, 9⟩
    | 3 => ⟨0x00003fe00000, 21, 9⟩
    | 4 => ⟨0x0000001ff000, 12, 9⟩
    | _ => ⟨0, 0, 0⟩

/-- `struct vm_area`. -/
structure VmArea where
  start : ℕ
  stop : ℕ
  kernel : Bool

def uvmArea : VmArea := ⟨0x100000000000, 0x108000000000, false⟩

def vmAreas : List VmArea := [uvmArea, ⟨0x000000000000, 0x008000000000, true⟩]

/-- What `vme_init` is given. -/
structure PageAllocator (σ : Type*) where
  pgalloc : ℕ → σ → ℕ × σ
  pgfree : ℕ → σ → σ

/-- The memory, and the state of the page allocator. -/
structure Vm (σ : Type*) where
  mem : ℕ → ℕ
  pages : σ

section Code

variable {σ : Type*} (A : PageAllocator σ)

/-- The loop of `pgallocz`, the first `n` rounds. -/
def zeroWords (base : ℕ) : ℕ → (ℕ → ℕ) → ℕ → ℕ
  | 0, mem => mem
  | n + 1, mem => Function.update (zeroWords base n mem) (base + 8 * n) 0

/-- `pgallocz`. -/
def pgallocz (v : Vm σ) : Option (ℕ × Vm σ) :=
  let r := A.pgalloc mmu.pgsize v.pages
  if r.1 = 0 then none
  else some (r.1, ⟨zeroWords r.1 (mmu.pgsize / 8) v.mem, r.2⟩)

/-- `indexof`, for level `i`. -/
def indexof (addr i : ℕ) : ℕ := (addr &&& (mmu.pgtables i).mask) >>> (mmu.pgtables i).shift

/-- `baseof`. -/
def baseof (addr : ℕ) : ℕ := addr &&& (2 ^ 64 - 1 - (mmu.pgsize - 1))

/-- The loop of `ptwalk` from level `i` on, with `n` levels to go. -/
def ptwalkLoop (addr flags : ℕ) : ℕ → ℕ → ℕ → Vm σ → Option (ℕ × Vm σ)
  | 0, i, cur, v => some (cur + 8 * indexof addr i, v)
  | n + 1, i, cur, v =>
      let e := cur + 8 * indexof addr i
      if v.mem e &&& PTE_P = 0 then
        (pgallocz A v).bind fun r =>
          ptwalkLoop addr flags n (i + 1) r.1
            { r.2 with mem := Function.update r.2.mem e (r.1 ||| PTE_P ||| flags) }
      else ptwalkLoop addr flags n (i + 1) (baseof (v.mem e)) v

/-- `ptwalk`. -/
def ptwalk (as addr flags : ℕ) (v : Vm σ) : Option (ℕ × Vm σ) :=
  ptwalkLoop A addr flags mmu.ptlevels 0 as v

/-- `teardown`, where `n` levels are left: beyond the last one there is nothing to do. -/
def teardown (mem : ℕ → ℕ) : ℕ → ℕ → ℕ → σ → σ
  | 0, _, _, s => s
  | n + 1, level, pt, s =>
      let s := (List.range (1 <<< (mmu.pgtables level).bits)).foldl (fun s index =>
        if mem (pt + 8 * index) &&& PTE_P ≠ 0 ∧ mem (pt + 8 * index) &&& PTE_U ≠ 0 then
          teardown mem n (level + 1) (baseof (mem (pt + 8 * index))) s
        else s) s
      if level ≥ 1 then A.pgfree pt s else s

/-- `kpt`, as `vme_init` sets it. -/
def kpt : ℕ := PML4_ADDR

/-- The values of `cur` in `protect`. -/
def areaStarts (vma : VmArea) : List ℕ :=
  (List.range ((vma.stop - vma.start) >>> (mmu.pgtables 1).shift)).map fun n =>
    vma.start + n <<< (mmu.pgtables 1).shift

/-- The loops of `protect`. -/
def copyKernel (upt : ℕ) (mem : ℕ → ℕ) : ℕ → ℕ :=
  vmAreas.foldl (fun mem vma =>
    if vma.kernel then
      (areaStarts vma).foldl (fun mem cur =>
        Function.update mem (upt + 8 * indexof cur 1) (mem (kpt + 8 * indexof cur 1))) mem
    else mem) mem

/-- `protect`. -/
def protect (as : ℕ) (v : Vm σ) : Option (Vm σ) :=
  (pgallocz A v).map fun r =>
    { r.2 with mem := Function.update (copyKernel r.1 r.2.mem) as (r.1 ||| PTE_P ||| PTE_U) }

/-- `unprotect`. -/
def unprotect (as : ℕ) (v : Vm σ) : Vm σ :=
  { v with pages := teardown A v.mem (mmu.ptlevels + 1) 0 as v.pages }

/-- `map`. -/
def map (as va pa prot : ℕ) (v : Vm σ) : Option (Vm σ) :=
  if ¬ (uvmArea.start ≤ va ∧ va < uvmArea.stop) then none
  else if va % mmu.pgsize ≠ 0 ∨ pa % mmu.pgsize ≠ 0 then none
  else
    (ptwalk A as va (PTE_W ||| PTE_U) v).bind fun r =>
      if prot = MMAP_NONE then
        if r.2.mem r.1 &&& PTE_P = 0 then none
        else
          (ptwalk A as va (PTE_W ||| PTE_U) { r.2 with mem := Function.update r.2.mem r.1 0 }).map
            Prod.snd
      else if r.2.mem r.1 &&& PTE_P ≠ 0 then none
      else
        let pte := pa ||| PTE_P ||| PTE_U ||| (if prot &&& MMAP_WRITE ≠ 0 then PTE_W else 0)
        (ptwalk A as va (PTE_W ||| PTE_U)
          { r.2 with mem := Function.update r.2.mem r.1 pte }).map Prod.snd

end Code

/-! ## The tables of the kernel (`start64.S`) -/

/-- The loop over the gigabytes. -/
def pdptLoop : ℕ → (ℕ → ℕ) → ℕ → ℕ
  | 0, mem => mem
  | ecx + 1, mem => Function.update (pdptLoop ecx mem) (PDPT_ADDR + 8 * ecx)
      (((ecx <<< 30) % 2 ^ 32 ||| (PTE_P ||| PTE_W ||| PTE_PS)) + (ecx >>> 2) * 2 ^ 32)

/-- `_start`, up to `.long_mode_init`. -/
def startTables (mem : ℕ → ℕ) : ℕ → ℕ :=
  if mem PML4_ADDR % 2 ^ 32 = (PDPT_ADDR ||| PTE_P ||| PTE_W) then mem
  else
    pdptLoop 512 (Function.update mem PML4_ADDR
      (mem PML4_ADDR / 2 ^ 32 * 2 ^ 32 + (PDPT_ADDR ||| PTE_P ||| PTE_W)))

/-! ## Words -/

theorem baseof_eq {a : ℕ} (h : a < 2 ^ 64) : baseof a = a / 2 ^ 12 * 2 ^ 12 :=
  Words.and_high (k := 12) h (by decide)

theorem baseof_page {p f : ℕ} (hp : 2 ^ 12 ∣ p) (hf : f < 2 ^ 12) (hlt : p < 2 ^ 64) :
    baseof (p + f) = p := by
  rcases hp with ⟨k, rfl⟩
  rw [baseof_eq (by omega)]
  omega

theorem indexof_root (addr : ℕ) : indexof addr 0 = 0 := by
  unfold indexof
  exact (congrArg (· >>> 0) (Nat.and_zero addr)).trans rfl

/-- At level `i` the index is made of nine bits. -/
theorem indexof_eq (addr : ℕ) {i : ℕ} (hi : 1 ≤ i) (hi' : i ≤ 4) :
    indexof addr i = addr / 2 ^ (48 - 9 * i) % 2 ^ 9 := by
  have hmask : (mmu.pgtables i).mask >>> (mmu.pgtables i).shift = 2 ^ 9 - 1 ∧
      (mmu.pgtables i).shift = 48 - 9 * i := by
    obtain rfl | rfl | rfl | rfl : i = 1 ∨ i = 2 ∨ i = 3 ∨ i = 4 := by omega
    all_goals decide
  rw [indexof, Nat.shiftRight_and_distrib, hmask.1, hmask.2, Nat.and_two_pow_sub_one_eq_mod,
    Nat.shiftRight_eq_div_pow]

/-! ## Loops over words -/

section Loops

variable {base n : ℕ} {mem : ℕ → ℕ}

/-- The page that an address is in. -/
def pageOf (a : ℕ) : ℕ := a / 2 ^ 12 * 2 ^ 12

theorem pageOf_entry {p i : ℕ} (hp : 2 ^ 12 ∣ p) (hi : i < 2 ^ 9) : pageOf (p + 8 * i) = p := by
  unfold pageOf
  omega

theorem pageOf_page {p : ℕ} (hp : 2 ^ 12 ∣ p) : pageOf p = p := pageOf_entry hp (i := 0) (by decide)

theorem zeroWords_entry {i : ℕ} (hi : i < n) : zeroWords base n mem (base + 8 * i) = 0 := by
  induction n with
  | zero => exact absurd hi (Nat.not_lt_zero i)
  | succ n ih =>
      rw [zeroWords]
      by_cases hin : i = n
      · rw [hin, Function.update_self]
      · rw [Function.update_of_ne (by omega), ih (by omega)]

theorem zeroWords_other {a : ℕ} (hbase : 2 ^ 12 ∣ base) (hn : n ≤ 2 ^ 9) (ha : pageOf a ≠ base) :
    zeroWords base n mem a = mem a := by
  induction n with
  | zero => rfl
  | succ n ih =>
      have hne : a ≠ base + 8 * n := fun h => ha (by rw [h, pageOf_entry hbase (by omega)])
      rw [zeroWords, Function.update_of_ne hne, ih (by omega)]

/-- There is one entry for the kernel. -/
theorem copyKernel_eq (upt : ℕ) (mem : ℕ → ℕ) :
    copyKernel upt mem = Function.update mem upt (mem PML4_ADDR) := by
  have hstarts : areaStarts ⟨0x000000000000, 0x008000000000, true⟩ = [0] := by decide
  rw [copyKernel, vmAreas]
  simp only [List.foldl_cons, List.foldl_nil, uvmArea, hstarts]
  rfl

/-- `start64.S` maps the first 512 gigabytes to themselves, in pages of one gigabyte that are not
for the user. -/
structure KernelTables (mem : ℕ → ℕ) : Prop where
  pml4 : mem PML4_ADDR = PDPT_ADDR + 3
  pdpt : ∀ i < 2 ^ 9, mem (PDPT_ADDR + 8 * i) = i * 2 ^ 30 + 0x83

theorem pdptLoop_apply {i : ℕ} (hi : i < n) (hn : n ≤ 2 ^ 9) :
    pdptLoop n mem (PDPT_ADDR + 8 * i) = i * 2 ^ 30 + 0x83 := by
  induction n with
  | zero => exact absurd hi (Nat.not_lt_zero i)
  | succ n ih =>
      rw [pdptLoop]
      by_cases hin : i = n
      · subst hin
        have hflags : PTE_P ||| PTE_W ||| PTE_PS = 0x83 := by decide
        rw [Function.update_self, hflags, Nat.shiftLeft_eq, Nat.shiftRight_eq_div_pow,
          Words.or_low (k := 12) (by omega) (by decide)]
        omega
      · rw [Function.update_of_ne (by omega), ih (by omega) (by omega)]

theorem pdptLoop_pml4 : pdptLoop n mem PML4_ADDR = mem PML4_ADDR := by
  induction n with
  | zero => rfl
  | succ n ih =>
      have hne : PML4_ADDR ≠ PDPT_ADDR + 8 * n := by
        unfold PML4_ADDR PDPT_ADDR
        omega
      rw [pdptLoop, Function.update_of_ne hne, ih]

theorem startTables_kernel (h : mem PML4_ADDR = 0) : KernelTables (startTables mem) := by
  have hflags : PDPT_ADDR ||| PTE_P ||| PTE_W = PDPT_ADDR + 3 := by decide
  rw [startTables, h, if_neg (by decide), hflags]
  refine ⟨?_, fun i hi => pdptLoop_apply hi (by decide)⟩
  rw [pdptLoop_pml4, Function.update_self]
  rfl

end Loops

end OsLab.Vme
