import OsLab.Slab.Run

/-! # Live blocks do not overlap

What callers of `kalloc` and `kfree` rely on (`HeapSound`): a block is aligned
to the power of two its size is rounded up to, and overlaps no other live block,
no header of a slab on a list and no page tree; and `kfree`, which only sees the
address, takes every block back to where it came from.
-/

namespace OsLab

open Buddy PtrList Trace

/-- `S` is on the list of `cpu` and class index `k`. -/
def SlabSys.OnList (σ : SlabSys) (cpu k S : ℕ) : Prop :=
  ∃ l, Chain σ.append (σ.slabsOfCpu cpu k) l ∧ S ∈ l

/-- The smallest power of two that is at least `max(size, 8)`. -/
def HeapBlock.extent (b : HeapBlock) : ℕ := 2 ^ Nat.clog 2 (max b.size 8)

/-- What callers rely on. -/
structure HeapSound (s : HeapState) : Prop where
  aligned : ∀ b ∈ s.live, b.extent ∣ b.addr
  apart : s.live.Pairwise fun b c => Apart b.addr b.extent c.addr c.extent
  offHeaders : ∀ b ∈ s.live, ∀ cpu k S, s.sys.OnList cpu k S →
    Apart b.addr b.extent S sizeofSlab
  offTrees : ∀ b ∈ s.live, ∀ i < s.sys.page.realPageNum,
    Apart b.addr b.extent (s.sys.page.pagePool i) MAX_PAGE_SIZE
  routes : ∀ b ∈ s.live, ∀ fuel, kfree fuel b.addr s.sys =
    if b.FromPage then (pageFree b.addr s.sys.page).map fun page => { s.sys with page := page }
    else slabFree fuel b.addr s.sys
  ownSlab : ∀ b ∈ s.live, ¬ b.FromPage → ∃ cpu k, s.sys.OnList cpu k (slabOf b.addr) ∧
    b.addr ∈ slabBlocks (slabOf b.addr) (transSlabSize b.size)

/-! ## The class of a block -/

theorem clog_eq {m c : ℕ} (h1 : m ≤ 2 ^ c) (h2 : ∀ k < c, 2 ^ k < m) : Nat.clog 2 m = c := by
  apply Nat.le_antisymm (Nat.clog_le_of_le_pow h1)
  by_contra hlt
  exact absurd (Nat.le_pow_clog (by decide) m) (Nat.not_le.2 (h2 _ (Nat.lt_of_not_le hlt)))

/-- For a block that `kalloc` can return, both levels of classes round up alike. -/
theorem HeapBlock.extent_eq {b : HeapBlock} (hb : b.FromPage → ¬ 2 ^ 24 < b.size) :
    b.extent = 2 ^ b.cls := by
  have h8 : ∀ k < 3, 2 ^ k < 8 := by decide
  refine congrArg (2 ^ ·) (clog_eq ?_ ?_)
  all_goals by_cases hp : b.FromPage
  · have hcls : b.cls = transPageSize b.size := if_pos hp
    have hlarge : b.size ≤ 2 ^ transPageSize b.size :=
      le_two_pow_transPageSize fun he => hb hp ((transPageSize_eq_refuse _).1 he)
    have hpow : 2 ^ 12 ≤ 2 ^ transPageSize b.size :=
      Nat.pow_le_pow_right (by decide) (P_4K_le_transPageSize _)
    rw [hcls]
    omega
  · have hcls : b.cls = transSlabSize b.size := if_neg hp
    rcases transSize_spec (show S_8B ≤ S_REFUSE by decide) b.size with ⟨h1, -, h3, -⟩ | ⟨h1, -⟩
    · have hpow : 2 ^ 3 ≤ 2 ^ transSlabSize b.size := Nat.pow_le_pow_right (by decide) h1
      rw [hcls]
      exact max_le h3 hpow
    · exact absurd h1 hp
  · intro k hk
    have hcls : b.cls = transPageSize b.size := if_pos hp
    rw [hcls] at hk
    refine lt_of_lt_of_le ?_ (le_max_left _ _)
    -- more than the largest slab class
    have hbig : 2 ^ 11 < b.size := (transSize_eq_refuse (show S_8B ≤ 11 by decide) b.size).1 hp
    rcases Nat.lt_or_ge k 12 with hlt | hge
    · exact lt_of_le_of_lt (Nat.pow_le_pow_right (by decide) (by omega)) hbig
    · rcases transSize_spec (show P_4K ≤ P_REFUSE by decide) b.size with ⟨-, -, -, h4⟩ | ⟨-, h2⟩
      · exact h4 k hge hk
      · exact h2 k hge (Nat.lt_of_lt_of_le hk (transPageSize_le _))
  · intro k hk
    have hcls : b.cls = transSlabSize b.size := if_neg hp
    rw [hcls] at hk
    rcases Nat.lt_or_ge k 3 with hlt | hge
    · exact lt_of_lt_of_le (h8 k hlt) (le_max_right _ _)
    · rcases transSize_spec (show S_8B ≤ S_REFUSE by decide) b.size with ⟨-, -, -, h4⟩ | ⟨h1, -⟩
      · exact lt_of_lt_of_le (h4 k hge hk) (le_max_left _ _)
      · exact absurd h1 hp

/-! ## In every state -/

section Sound

variable {heap : Area} {T : ℕ → BuddyTree 12} {L : ℕ → ℕ → List ℕ} {F : ℕ → List ℕ}
  {s : HeapState}

theorem HeapInv.onList_iff (h : HeapInv heap T L F s) {cpu k S : ℕ} :
    s.sys.OnList cpu k S ↔ S ∈ L cpu k := by
  constructor
  · rintro ⟨l, hl, hS⟩
    exact hl.unique (h.lists.chain cpu k) ▸ hS
  · exact fun hS => ⟨_, h.lists.chain cpu k, hS⟩

theorem HeapInv.extent (h : HeapInv heap T L F s) {b : HeapBlock} (hb : b ∈ s.live) :
    b.extent = 2 ^ b.cls :=
  b.extent_eq fun hp => (h.account.pages b hb hp).2.1

theorem HeapInv.dvd_addr (h : HeapInv heap T L F s) {b : HeapBlock} (hb : b ∈ s.live) :
    2 ^ b.cls ∣ b.addr := by
  by_cases hp : b.FromPage
  · exact (h.page_of_live hb hp).aligned
  · rcases h.slab_of_live hb hp with ⟨cpu, k, S, hS, hcls, hmem, -⟩
    rw [hcls]
    exact dvd_of_mem_slabBlocks (Nat.le_add_left _ _) (h.lists.class_lt cpu k S hS)
      (h.lists.dvd hS) hmem

theorem HeapInv.sound (h : HeapInv heap T L F s) : HeapSound s where
  aligned b hb := by
    rw [h.extent hb]
    exact h.dvd_addr hb
  apart := by
    have hne : s.live.Pairwise fun b c => b.addr ≠ c.addr := List.pairwise_map.1 h.account.distinct
    refine hne.imp_of_mem fun {b c} hb hc hbc => ?_
    rw [h.extent hb, h.extent hc]
    exact h.apart hb hc hbc
  offHeaders b hb cpu k S hS := by
    rw [h.extent hb]
    exact h.apart_header hb (h.onList_iff.1 hS)
  offTrees b hb i hi := by
    have hl := h.lists.rep.layout
    rw [hl.realPageNum] at hi
    rw [hl.pagePool i hi]
    exact Or.inr (Nat.le_trans (heap.treeAddr_lt hi) (h.base_le hb))
  routes b hb fuel := by
    unfold kfree
    by_cases hp : b.FromPage
    · rw [if_pos hp, if_pos ((h.isAligned_iff_fromPage hb).2 hp)]
    · rw [if_neg hp, if_neg (mt (h.isAligned_iff_fromPage hb).1 hp)]
  ownSlab b hb hp := by
    rcases h.slab_of_live hb hp with ⟨cpu, k, S, hS, hcls, hmem, h1, h2⟩
    have hpos := Nat.two_pow_pos b.cls
    have hslab : slabOf b.addr = S := slabOf_eq (h.lists.dvd hS) (by omega) (by omega)
    have hsize : transSlabSize b.size = k + S_8B := (if_neg hp).symm.trans hcls
    rw [hslab, hsize]
    exact ⟨cpu, k, h.onList_iff.2 hS, hmem⟩

end Sound

/-- In every state of every run the live blocks are sound. -/
theorem heapSound_of_run {heap : Area} {n : ℕ} {mem : ℕ → ℕ} {h : List (HeapState × HeapEvent)}
    {s : HeapState} (hr : HeapRun heap n mem h s) : HeapSound s := by
  rcases hr.inv with ⟨T, L, F, hinv⟩
  exact hinv.sound

/-- CPU 0 has requested 5 bytes three times, and CPU 1 has freed the first block. -/
theorem heapSound_twoBlocks : ∃ h s p q r, HeapRun oneUnit 2 (fun _ => 0) h s ∧
    (∃ t, (t, .free 1 ⟨p, 5⟩) ∈ h) ∧ s.live = [⟨r, 5⟩, ⟨q, 5⟩] ∧ HeapSound s := by
  rcases exists_run_twoBlocks with ⟨h, s, p, q, r, hr, hfree, hlive⟩
  exact ⟨h, s, p, q, r, hr, hfree, hlive, heapSound_of_run hr⟩

end OsLab
