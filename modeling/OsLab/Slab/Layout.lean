import OsLab.Slab.Basic
import OsLab.Lib.Buddy
import OsLab.Lib.PtrList
import Mathlib.Data.List.Perm.Basic
import Mathlib.Tactic.IntervalCases

/-! # The layout of a slab

`slabBlocks slab size` are the blocks of a slab of class `size`: they fill the
page behind the header, are aligned to their size, and are never aligned to a
page, which is how `kfree` tells them from what `page_alloc` gave out.
-/

namespace OsLab

open Buddy PtrList

/-! ## Blocks of a slab -/

/-- The number of blocks of class `size` in a slab. -/
def slabBlockNum (size : ℕ) : ℕ := (SLAB_SPACE - slabOcupy size) >>> size

/-- Block `k` of the slab at `slab`. -/
def slabBlock (slab size k : ℕ) : ℕ := slab + slabOcupy size + k * 2 ^ size

/-- All blocks of the slab. -/
def slabBlocks (slab size : ℕ) : List ℕ := (List.range (slabBlockNum size)).map (slabBlock slab size)

section Blocks

variable {slab size a b : ℕ}

/-- Header, padding and blocks fill the page exactly. -/
theorem slabOcupy_spec (h3 : S_8B ≤ size) (h12 : size < S_REFUSE) :
    64 ≤ slabOcupy size ∧ 2 ^ size ∣ slabOcupy size ∧ 2 ^ size ∣ 2 ^ 12 ∧ 0 < slabBlockNum size ∧
      slabOcupy size + slabBlockNum size * 2 ^ size = 2 ^ 12 := by
  simp only [S_8B, S_REFUSE] at h3 h12
  interval_cases size <;> decide

theorem mem_slabBlocks : a ∈ slabBlocks slab size ↔
    ∃ k < slabBlockNum size, slabBlock slab size k = a := by
  simp only [slabBlocks, List.mem_map, List.mem_range]

theorem length_slabBlocks : (slabBlocks slab size).length = slabBlockNum size := by
  simp only [slabBlocks, List.length_map, List.length_range]

/-- A block lies behind the header and inside the page. -/
theorem slabBlocks_bounds (h3 : S_8B ≤ size) (h12 : size < S_REFUSE) (ha : a ∈ slabBlocks slab size) :
    slab + 64 ≤ a ∧ a + 2 ^ size ≤ slab + 2 ^ 12 := by
  rcases slabOcupy_spec h3 h12 with ⟨h64, -, -, -, hfill⟩
  rcases mem_slabBlocks.1 ha with ⟨k, hk, rfl⟩
  have hle : (k + 1) * 2 ^ size ≤ slabBlockNum size * 2 ^ size := Nat.mul_le_mul_right _ hk
  rw [Nat.succ_mul] at hle
  unfold slabBlock
  omega

theorem dvd_of_mem_slabBlocks (h3 : S_8B ≤ size) (h12 : size < S_REFUSE) (hs : 2 ^ 12 ∣ slab)
    (ha : a ∈ slabBlocks slab size) : 2 ^ size ∣ a := by
  rcases slabOcupy_spec h3 h12 with ⟨-, hocupy, hpage, -, -⟩
  rcases mem_slabBlocks.1 ha with ⟨k, -, rfl⟩
  exact Nat.dvd_add (Nat.dvd_add (hpage.trans hs) hocupy) (Nat.dvd_mul_left _ _)

/-- Different blocks of a slab do not overlap. -/
theorem apart_of_mem_slabBlocks (ha : a ∈ slabBlocks slab size) (hb : b ∈ slabBlocks slab size)
    (hne : a ≠ b) : Apart a (2 ^ size) b (2 ^ size) := by
  rcases mem_slabBlocks.1 ha with ⟨i, -, rfl⟩
  rcases mem_slabBlocks.1 hb with ⟨j, -, rfl⟩
  unfold slabBlock Apart
  rcases Nat.lt_trichotomy i j with hij | rfl | hij
  · have : (i + 1) * 2 ^ size ≤ j * 2 ^ size := Nat.mul_le_mul_right _ hij
    rw [Nat.succ_mul] at this
    omega
  · exact absurd rfl hne
  · have : (j + 1) * 2 ^ size ≤ i * 2 ^ size := Nat.mul_le_mul_right _ hij
    rw [Nat.succ_mul] at this
    omega

theorem slabBlock_lt {i j : ℕ} (hij : i < j) : slabBlock slab size i < slabBlock slab size j := by
  unfold slabBlock
  have := Nat.mul_lt_mul_of_pos_right hij (Nat.two_pow_pos size)
  omega

theorem nodup_slabBlocks : (slabBlocks slab size).Nodup := by
  unfold slabBlocks
  refine List.Nodup.map_on ?_ List.nodup_range
  intro i _ j _ he
  rcases Nat.lt_trichotomy i j with hij | hij | hij
  · exact absurd he (slabBlock_lt hij).ne
  · exact hij
  · exact absurd he (slabBlock_lt hij).ne'

end Blocks

/-! ## The page of a block -/

section Page

variable {slab ptr : ℕ}

theorem slabOf_eq_sub (ptr : ℕ) : slabOf ptr = ptr - ptr % 2 ^ 12 := by
  unfold slabOf
  rw [land_mask]

/-- Rounding down to a page finds the page that an address lies in. -/
theorem slabOf_eq (hs : 2 ^ 12 ∣ slab) (h1 : slab ≤ ptr) (h2 : ptr < slab + 2 ^ 12) :
    slabOf ptr = slab := by
  rw [slabOf_eq_sub]
  omega

/-- Only its first address is aligned to a page. -/
theorem not_isAligned_of_inside (hs : 2 ^ 12 ∣ slab) (h1 : slab < ptr) (h2 : ptr < slab + 2 ^ 12) :
    ¬ IsAligned ptr 12 := by
  rw [isAligned_iff]
  omega

/-- Different pages do not overlap. -/
theorem apart_pages {s t : ℕ} (hs : 2 ^ 12 ∣ s) (ht : 2 ^ 12 ∣ t) (hne : s ≠ t) :
    s + 2 ^ 12 ≤ t ∨ t + 2 ^ 12 ≤ s := by
  omega

end Page

/-! ## Cells -/

/-- `q` differs from `p` at most in its memory. -/
def PageSys.OnlyMem (p q : PageSys) : Prop := ∃ m, q = { p with mem := m }

namespace PageSys.OnlyMem

variable {p q r : PageSys}

theorem refl (p : PageSys) : OnlyMem p p := ⟨p.mem, rfl⟩

theorem trans (h : OnlyMem p q) (h' : OnlyMem q r) : OnlyMem p r := by
  rcases h with ⟨m, rfl⟩
  rcases h' with ⟨m', rfl⟩
  exact ⟨m', rfl⟩

theorem setMem {σ : SlabSys} (h : OnlyMem p σ.page) (a v : ℕ) : OnlyMem p (σ.setMem a v).page := by
  rcases h with ⟨m, hm⟩
  refine ⟨Function.update σ.page.mem a v, ?_⟩
  rw [SlabSys.setMem, hm]

end PageSys.OnlyMem

namespace SlabSys

variable {σ : SlabSys} {a b v : ℕ} {p : Option ℕ}

theorem mem_setMem : (σ.setMem a v).mem b = if b = a then v else σ.mem b :=
  Function.update_apply _ _ _ _

@[simp] theorem mem_setMem_self : (σ.setMem a v).mem a = v := Function.update_self _ _ _

theorem mem_setMem_ne (h : b ≠ a) : (σ.setMem a v).mem b = σ.mem b :=
  Function.update_of_ne h _ _

@[simp] theorem slabsOfCpu_setMem : (σ.setMem a v).slabsOfCpu = σ.slabsOfCpu := rfl

@[simp] theorem page_setSlabsOfCpu {cpu k : ℕ} : (σ.setSlabsOfCpu cpu k p).page = σ.page := rfl

@[simp] theorem mem_setSlabsOfCpu {cpu k : ℕ} : (σ.setSlabsOfCpu cpu k p).mem a = σ.mem a := rfl

@[simp] theorem setMem_setMem {w : ℕ} : (σ.setMem a v).setMem a w = σ.setMem a w := by
  unfold setMem
  simp only [Function.update_idem]

theorem setMem_comm {w : ℕ} (h : a ≠ b) :
    (σ.setMem a v).setMem b w = (σ.setMem b w).setMem a v := by
  unfold setMem
  simp only [Function.update_comm h]

theorem setMem_mem_self (h : σ.mem a = v) : σ.setMem a v = σ := by
  subst h
  unfold setMem
  simp only [mem, Function.update_eq_self]

/-- A pointer other than 0 is read back. -/
theorem ptr_eq_of_mem (h : σ.mem a = p.getD 0) (hp : p ≠ some 0) : σ.ptr a = p := by
  unfold ptr
  cases p with
  | none => simp [h]
  | some x =>
      have hx : x ≠ 0 := fun he => hp (he ▸ rfl)
      simp [h, hx]

theorem ptr_setPtr_self (hp : p ≠ some 0) : (σ.setPtr a p).ptr a = p :=
  ptr_eq_of_mem mem_setMem_self hp

theorem ptr_congr {σ' : SlabSys} (h : σ'.mem a = σ.mem a) : σ'.ptr a = σ.ptr a := by
  unfold ptr
  rw [h]

theorem ptr_ne_some_zero (σ : SlabSys) (a : ℕ) : σ.ptr a ≠ some 0 := by
  unfold ptr
  split
  · exact nofun
  · rename_i h
    exact fun he => h (Option.some.inj he)

end SlabSys

end OsLab
