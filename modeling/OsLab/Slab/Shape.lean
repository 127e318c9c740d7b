import OsLab.Slab.Disjoint

/-! # The shape of the slab lists

`ListSound s cpu k l` is what `slab.c` keeps up about the list of CPU `cpu` and
class index `k`, whose slabs are `l`: the list ends, its slabs carry its labels
and are on no other list, every one of them accounts for all its blocks
(`SlabSound`), and only the head may have no live block.
-/

namespace OsLab

open Buddy PtrList Trace

/-- The free list of `S` holds exactly `free_block_num` blocks of the slab, none of them twice and
none of them live; with the live blocks these are all blocks. -/
def SlabSound (s : HeapState) (S : ℕ) : Prop :=
  ∃ free, Chain s.sys.next (s.sys.freeList S) free ∧ free.Nodup ∧
    free.length = s.sys.freeBlockNum S ∧
    (∀ a ∈ free, a ∈ slabBlocks S (s.sys.type S) ∧ (∃ j, a = S + j * 2 ^ s.sys.type S) ∧
      S + sizeofSlab ≤ a ∧ a + 2 ^ s.sys.type S ≤ S + SLAB_SPACE ∧ ∀ b ∈ s.live, b.addr ≠ a) ∧
    s.sys.freeBlockNum S + (liveIn S s.live).length = s.sys.blockNum S

structure ListSound (s : HeapState) (cpu k : ℕ) (l : List ℕ) : Prop where
  chain : Chain s.sys.append (s.sys.slabsOfCpu cpu k) l
  acyclic : l.Nodup
  labels : ∀ S ∈ l, s.sys.cpuId S = cpu ∧ s.sys.type S = k + SLAB_SIZE_OFFSET
  once : ∀ S ∈ l, ∀ c j, s.sys.OnList c j S → c = cpu ∧ j = k
  slabs : ∀ S ∈ l, SlabSound s S
  busy : ∀ S ∈ l.tail, liveIn S s.live ≠ []

/-- What holds of all lists together. -/
structure ListsSound (s : HeapState) : Prop where
  lists : ∀ cpu k, ∃ l, ListSound s cpu k l
  owned : ∀ b ∈ s.live, ¬ b.FromPage →
    ∃ cpu k S, s.sys.OnList cpu k S ∧ s.sys.type S = transSlabSize b.size ∧ b.addr ∈ liveIn S s.live

section Shape

variable {heap : Area} {T : ℕ → BuddyTree 12} {L : ℕ → ℕ → List ℕ} {F : ℕ → List ℕ}
  {s : HeapState} {cpu k S : ℕ}

theorem HeapInv.slabSound (h : HeapInv heap T L F s) (hS : S ∈ L cpu k) : SlabSound s S := by
  have hok := h.lists.slab cpu k S hS
  have hlt := h.lists.class_lt cpu k S hS
  rcases slabOcupy_spec (Nat.le_add_left _ _) hlt with ⟨-, hocupy, -, -, -⟩
  refine ⟨F S, hok.freeList, hok.freeList.nodup, hok.freeBlockNum.symm, fun a ha => ?_, ?_⟩
  · have hin := hok.inside a ha
    have hb := slabBlocks_bounds (Nat.le_add_left _ _) hlt hin
    have hpos := Nat.two_pow_pos (k + S_8B)
    rw [hok.type]
    unfold SLAB_SPACE sizeofSlab
    refine ⟨hin, ?_, by omega, hb.2, fun b hb' he => ?_⟩
    · -- the space of the header is a multiple of the block size
      rcases hocupy with ⟨q, hq⟩
      rcases mem_slabBlocks.1 hin with ⟨i, -, rfl⟩
      refine ⟨q + i, ?_⟩
      rw [slabBlock, hq, Nat.mul_comm, Nat.add_mul, Nat.add_assoc]
    · refine h.account.not_live_of_free hS ha (mem_liveIn.2 ⟨⟨b, hb', he⟩, by omega, by omega⟩)
  · rw [hok.freeBlockNum, hok.blockNum]
    exact h.account.length hS

theorem HeapInv.listSound (h : HeapInv heap T L F s) (cpu k : ℕ) : ListSound s cpu k (L cpu k) where
  chain := h.lists.chain cpu k
  acyclic := (h.lists.chain cpu k).nodup
  labels S hS := ⟨(h.lists.slab cpu k S hS).cpuId, (h.lists.slab cpu k S hS).type⟩
  once _ hS _ _ hcj := h.lists.unique (h.onList_iff.1 hcj) hS
  slabs _ hS := h.slabSound hS
  busy := h.account.busy cpu k

theorem HeapInv.listsSound (h : HeapInv heap T L F s) : ListsSound s where
  lists cpu k := ⟨L cpu k, h.listSound cpu k⟩
  owned b hb hp := by
    rcases h.account.owned b hb hp with ⟨cpu, k, S, hS, hsize, h1, h2⟩
    refine ⟨cpu, k, S, h.onList_iff.2 hS, ?_, mem_liveIn.2 ⟨⟨b, hb, rfl⟩, h1, h2⟩⟩
    rw [(h.lists.slab cpu k S hS).type, hsize]

end Shape

/-- In every state of every run the slab lists have their shape. -/
theorem listsSound_of_run {heap : Area} {n : ℕ} {mem : ℕ → ℕ} {h : List (HeapState × HeapEvent)}
    {s : HeapState} (hr : HeapRun heap n mem h s) : ListsSound s := by
  rcases hr.inv with ⟨T, L, F, hinv⟩
  exact hinv.listsSound

/-- CPU 0 has requested 5 bytes three times, and CPU 1 has freed the first block. -/
theorem listsSound_twoBlocks : ∃ h s p q r, HeapRun oneUnit 2 (fun _ => 0) h s ∧
    (∃ t, (t, .free 1 ⟨p, 5⟩) ∈ h) ∧ s.live = [⟨r, 5⟩, ⟨q, 5⟩] ∧ ListsSound s := by
  rcases exists_run_twoBlocks with ⟨h, s, p, q, r, hr, hfree, hlive⟩
  exact ⟨h, s, p, q, r, hr, hfree, hlive, listsSound_of_run hr⟩

end OsLab
