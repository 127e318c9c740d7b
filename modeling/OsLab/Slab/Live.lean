import OsLab.Slab.Lists

/-! # The live blocks of the heap

`HeapBlock` is what `kalloc` returned, with the size it was asked for.
`LiveInv heap T L F live` is the account of the live blocks: those of a slab on
a list and its free blocks are together exactly its blocks, so none is lost and
none is counted twice; a slab behind the head of its list has a live block; and
a live block belongs to a slab on a list or came from `page_alloc`.

The rules below say how the account moves on with every operation.
-/

namespace OsLab

open Buddy PtrList

/-- What `kalloc(size)` returned. -/
structure HeapBlock where
  addr : ℕ
  size : ℕ
deriving DecidableEq, Repr

/-- `kalloc` hands the request on to `page_alloc`. -/
def HeapBlock.FromPage (b : HeapBlock) : Prop := transSlabSize b.size = S_REFUSE

instance (b : HeapBlock) : Decidable b.FromPage := inferInstanceAs (Decidable (_ = _))

/-- The class the size was rounded up to. -/
def HeapBlock.cls (b : HeapBlock) : ℕ :=
  if b.FromPage then transPageSize b.size else transSlabSize b.size

/-- The bytes that belong to it. -/
def HeapBlock.block (b : HeapBlock) : Block := ⟨b.addr, b.cls⟩

/-- The addresses of the live blocks in the page at `slab`. -/
def liveIn (slab : ℕ) (live : List HeapBlock) : List ℕ :=
  (live.map HeapBlock.addr).filter fun a => slab < a ∧ a < slab + 2 ^ 12

section LiveIn

variable {slab a : ℕ} {b : HeapBlock} {live : List HeapBlock}

theorem mem_liveIn : a ∈ liveIn slab live ↔
    (∃ b ∈ live, b.addr = a) ∧ slab < a ∧ a < slab + 2 ^ 12 := by
  simp only [liveIn, List.mem_filter, List.mem_map, decide_eq_true_eq]

theorem liveIn_cons_of_inside (h1 : slab < b.addr) (h2 : b.addr < slab + 2 ^ 12) :
    liveIn slab (b :: live) = b.addr :: liveIn slab live := by
  unfold liveIn
  rw [List.map_cons, List.filter_cons_of_pos]
  exact decide_eq_true ⟨h1, h2⟩

theorem liveIn_cons_of_outside (h : ¬ (slab < b.addr ∧ b.addr < slab + 2 ^ 12)) :
    liveIn slab (b :: live) = liveIn slab live := by
  unfold liveIn
  rw [List.map_cons, List.filter_cons_of_neg]
  simpa using h

/-- A live block is accounted for once. -/
theorem liveIn_perm_erase (slab : ℕ) (hb : b ∈ live) :
    (liveIn slab live).Perm (liveIn slab (b :: live.erase b)) :=
  ((List.perm_cons_erase hb).map _).filter _

theorem liveIn_erase_of_outside (hb : b ∈ live)
    (h : ¬ (slab < b.addr ∧ b.addr < slab + 2 ^ 12)) :
    (liveIn slab live).Perm (liveIn slab (live.erase b)) := by
  have hp := liveIn_perm_erase slab hb
  rwa [liveIn_cons_of_outside h] at hp

theorem liveIn_erase_of_inside (hb : b ∈ live) (h1 : slab < b.addr)
    (h2 : b.addr < slab + 2 ^ 12) :
    (liveIn slab live).Perm (b.addr :: liveIn slab (live.erase b)) := by
  have hp := liveIn_perm_erase slab hb
  rwa [liveIn_cons_of_inside h1 h2] at hp

end LiveIn

/-- The account of the live blocks. -/
structure LiveInv (heap : Area) (T : ℕ → BuddyTree 12) (L : ℕ → ℕ → List ℕ) (F : ℕ → List ℕ)
    (live : List HeapBlock) : Prop where
  blocks : ∀ cpu k, ∀ S ∈ L cpu k, (F S ++ liveIn S live).Perm (slabBlocks S (k + S_8B))
  busy : ∀ cpu k, ∀ S ∈ (L cpu k).tail, liveIn S live ≠ []
  pages : ∀ b ∈ live, b.FromPage →
    Given heap T b.block ∧ ¬ 2 ^ 24 < b.size ∧ ∀ cpu k, b.addr ∉ L cpu k
  owned : ∀ b ∈ live, ¬ b.FromPage →
    ∃ cpu k, ∃ S ∈ L cpu k, transSlabSize b.size = k + S_8B ∧ S < b.addr ∧ b.addr < S + 2 ^ 12
  distinct : (live.map HeapBlock.addr).Nodup

section LiveInv

variable {heap : Area} {T T' : ℕ → BuddyTree 12} {L : ℕ → ℕ → List ℕ} {F F' : ℕ → List ℕ}
  {σ : SlabSys} {live : List HeapBlock} {cpu k S a size : ℕ} {b : HeapBlock}

theorem LiveInv.mem_slabBlocks_of_free (h : LiveInv heap T L F live) (hS : S ∈ L cpu k)
    (ha : a ∈ F S) : a ∈ slabBlocks S (k + S_8B) :=
  (h.blocks cpu k S hS).mem_iff.1 (List.mem_append_left _ ha)

theorem LiveInv.mem_slabBlocks_of_live (h : LiveInv heap T L F live) (hS : S ∈ L cpu k)
    (ha : a ∈ liveIn S live) : a ∈ slabBlocks S (k + S_8B) :=
  (h.blocks cpu k S hS).mem_iff.1 (List.mem_append_right _ ha)

/-- No free block is live. -/
theorem LiveInv.not_live_of_free (h : LiveInv heap T L F live) (hS : S ∈ L cpu k)
    (ha : a ∈ F S) : a ∉ liveIn S live := by
  have hnd := (h.blocks cpu k S hS).nodup_iff.2 nodup_slabBlocks
  exact fun hl => List.disjoint_of_nodup_append hnd ha hl

/-- Free and live blocks make up the slab. -/
theorem LiveInv.length (h : LiveInv heap T L F live) (hS : S ∈ L cpu k) :
    (F S).length + (liveIn S live).length = slabBlockNum (k + S_8B) := by
  rw [← List.length_append, (h.blocks cpu k S hS).length_eq, length_slabBlocks]

/-- A block from `page_alloc` is aligned to a page. -/
theorem LiveInv.dvd_of_fromPage (h : LiveInv heap T L F live) (hb : b ∈ live) (hp : b.FromPage) :
    2 ^ 12 ∣ b.addr := by
  have hcls : b.cls = transPageSize b.size := if_pos hp
  have hal : 2 ^ b.cls ∣ b.addr := (h.pages b hb hp).1.aligned
  rw [hcls] at hal
  exact (Nat.pow_dvd_pow 2 (P_4K_le_transPageSize _)).trans hal

/-- A block from `page_alloc` lies inside no slab. -/
theorem outside_of_dvd (hS : 2 ^ 12 ∣ S) (ha : 2 ^ 12 ∣ a) : ¬ (S < a ∧ a < S + 2 ^ 12) := by
  omega

/-- Inside one slab is outside all others. -/
theorem outside_of_inside {Q : ℕ} (hS : 2 ^ 12 ∣ S) (hQ : 2 ^ 12 ∣ Q) (hne : Q ≠ S) (h1 : S < a)
    (h2 : a < S + 2 ^ 12) : ¬ (Q < a ∧ a < Q + 2 ^ 12) := by
  omega

/-! ## Rules for `kalloc` -/

/-- A free block of a slab becomes live. -/
theorem LiveInv.take (h : LiveInv heap T L F live) (hl : ListsInv heap T L F' σ)
    (hS : S ∈ L cpu k) {rest : List ℕ} (hF : F S = a :: rest) (hsize : transSlabSize size = k + S_8B) :
    LiveInv heap T L (Function.update F S rest) (⟨a, size⟩ :: live) := by
  have ha : a ∈ F S := hF ▸ List.mem_cons_self
  have hk := hl.class_lt cpu k S hS
  have hpos := Nat.two_pow_pos (k + S_8B)
  have hin := slabBlocks_bounds (Nat.le_add_left _ _) hk (h.mem_slabBlocks_of_free hS ha)
  have hd := hl.dvd hS
  have hfrom : ¬ (⟨a, size⟩ : HeapBlock).FromPage := by
    unfold HeapBlock.FromPage
    simp only [hsize]
    omega
  have hother : ∀ {c j Q}, Q ∈ L c j → Q ≠ S →
      liveIn Q (⟨a, size⟩ :: live) = liveIn Q live := fun hQ hne =>
    liveIn_cons_of_outside (outside_of_inside hd (hl.dvd hQ) hne (by simp only; omega)
      (by simp only; omega))
  have hself : liveIn S (⟨a, size⟩ :: live) = a :: liveIn S live :=
    liveIn_cons_of_inside (by simp only; omega) (by simp only; omega)
  refine ⟨?_, ?_, ?_, ?_, ?_⟩
  · intro c j Q hQ
    by_cases hne : Q = S
    · subst hne
      have hp := h.blocks c j Q hQ
      rw [hF] at hp
      rw [Function.update_self, hself]
      exact List.perm_middle.trans hp
    · rw [Function.update_of_ne hne, hother hQ hne]
      exact h.blocks c j Q hQ
  · intro c j Q hQ
    by_cases hne : Q = S
    · subst hne
      rw [hself]
      exact List.cons_ne_nil _ _
    · rw [hother (List.mem_of_mem_tail hQ) hne]
      exact h.busy c j Q hQ
  · rintro b (_ | ⟨_, hb⟩) hp
    · exact absurd hp hfrom
    · exact h.pages b hb hp
  · rintro b (_ | ⟨_, hb⟩) hp
    · exact ⟨cpu, k, S, hS, hsize, by simp only; omega, by simp only; omega⟩
    · exact h.owned b hb hp
  · refine List.nodup_cons.2 ⟨fun hmem => ?_, h.distinct⟩
    rcases List.mem_map.1 hmem with ⟨b, hb, he⟩
    refine h.not_live_of_free hS ha (mem_liveIn.2 ⟨⟨b, hb, he⟩, by omega, by omega⟩)

/-- No live block lies in a page given out just now. -/
theorem LiveInv.not_inside_new (h : LiveInv heap T L F live) (hl : ListsInv heap T L F' σ)
    {B : Block} (hgr : Grants heap T T' B) (hb : b ∈ live) :
    b.addr < B.addr ∨ B.addr + B.size ≤ b.addr := by
  by_cases hp : b.FromPage
  · have hap := hgr.apart _ (h.pages b hb hp).1
    have hpos := b.block.size_pos
    unfold Block.Apart Apart at hap
    have haddr : b.block.addr = b.addr := rfl
    omega
  · rcases h.owned b hb hp with ⟨c, j, Q, hQ, -, h1, h2⟩
    have hap := hgr.apart _ (hl.given c j Q hQ)
    have hsize : (⟨Q, 12⟩ : Block).size = 2 ^ 12 := rfl
    unfold Block.Apart Apart at hap
    rw [hsize] at hap
    simp only at hap
    omega

/-- A new slab, when all slabs of the list are used up. -/
theorem LiveInv.push (h : LiveInv heap T L F live) (hl : ListsInv heap T L F' σ)
    (hk : k + S_8B < S_REFUSE) (hgr : Grants heap T T' ⟨S, 12⟩) (hfull : ∀ Q ∈ L cpu k, F Q = []) :
    LiveInv heap T' (setList L cpu k (S :: L cpu k))
      (Function.update F S (slabBlocks S (k + S_8B)).reverse) live := by
  have hsize : (⟨S, 12⟩ : Block).size = 2 ^ 12 := rfl
  have hnew : ∀ {c j}, S ∉ L c j := fun {c j} hS =>
    (hgr.apart _ (hl.given c j S hS)).ne rfl
  have hempty : liveIn S live = [] := by
    refine List.eq_nil_iff_forall_not_mem.2 fun a ha => ?_
    rcases mem_liveIn.1 ha with ⟨⟨b, hb, rfl⟩, h1, h2⟩
    have := h.not_inside_new hl hgr hb
    rw [hsize] at this
    simp only at this
    omega
  refine ⟨?_, ?_, ?_, ?_, h.distinct⟩
  · intro c j Q hQ
    rcases mem_setList_cons.1 hQ with ⟨rfl, rfl, rfl⟩ | hQ
    · rw [Function.update_self, hempty, List.append_nil]
      exact List.reverse_perm _
    · rw [Function.update_of_ne fun he => hnew (he ▸ hQ)]
      exact h.blocks c j Q hQ
  · intro c j Q hQ
    by_cases hcj : c = cpu ∧ j = k
    · -- the slabs that are behind the new head now have no free block
      rcases hcj with ⟨rfl, rfl⟩
      rw [setList_self] at hQ
      have hQ' : Q ∈ L c j := hQ
      intro hnil
      have hlen := h.length hQ'
      rw [hfull Q hQ', hnil] at hlen
      rcases slabOcupy_spec (Nat.le_add_left _ _) hk with ⟨-, -, -, hpos, -⟩
      simp only [List.length_nil] at hlen
      omega
    · rw [setList_of_ne hcj] at hQ
      exact h.busy c j Q hQ
  · intro b hb hp
    rcases h.pages b hb hp with ⟨hg, hsz, hnot⟩
    refine ⟨(hgr.given _).2 (Or.inr hg), hsz, fun c j hmem => ?_⟩
    rcases mem_setList_cons.1 hmem with ⟨he, -, -⟩ | hmem
    · have := h.not_inside_new hl hgr hb
      rw [hsize] at this
      simp only at this
      omega
    · exact hnot c j hmem
  · intro b hb hp
    rcases h.owned b hb hp with ⟨c, j, Q, hQ, hrest⟩
    exact ⟨c, j, Q, mem_setList_cons.2 (Or.inr hQ), hrest⟩

/-- A block from `page_alloc`. -/
theorem LiveInv.page (h : LiveInv heap T L F live) (hl : ListsInv heap T L F' σ)
    (hp : (⟨a, size⟩ : HeapBlock).FromPage) (hsize : ¬ 2 ^ 24 < size)
    (hgr : Grants heap T T' ⟨a, transPageSize size⟩) :
    LiveInv heap T' L F (⟨a, size⟩ :: live) := by
  have hblock : (⟨a, size⟩ : HeapBlock).block = ⟨a, transPageSize size⟩ :=
    congrArg (Block.mk a) (if_pos hp)
  have hgiven : Given heap T' ⟨a, transPageSize size⟩ := (hgr.given _).2 (Or.inl rfl)
  have hd : 2 ^ 12 ∣ a :=
    (Nat.pow_dvd_pow 2 (P_4K_le_transPageSize size)).trans hgiven.aligned
  have hsame : ∀ {c j Q}, Q ∈ L c j → liveIn Q (⟨a, size⟩ :: live) = liveIn Q live := fun hQ =>
    liveIn_cons_of_outside (outside_of_dvd (hl.dvd hQ) hd)
  refine ⟨?_, ?_, ?_, ?_, ?_⟩
  · intro c j Q hQ
    rw [hsame hQ]
    exact h.blocks c j Q hQ
  · intro c j Q hQ
    rw [hsame (List.mem_of_mem_tail hQ)]
    exact h.busy c j Q hQ
  · rintro b (_ | ⟨_, hb⟩) hp'
    · rw [hblock]
      refine ⟨hgiven, hsize, fun c j hmem => ?_⟩
      exact Block.Apart.addr_ne (hgr.apart _ (hl.given c j a hmem)) rfl
    · rcases h.pages b hb hp' with ⟨hg, hsz, hnot⟩
      exact ⟨(hgr.given _).2 (Or.inr hg), hsz, hnot⟩
  · rintro b (_ | ⟨_, hb⟩) hp'
    · exact absurd hp hp'
    · exact h.owned b hb hp'
  · refine List.nodup_cons.2 ⟨fun hmem => ?_, h.distinct⟩
    rcases List.mem_map.1 hmem with ⟨b, hb, he⟩
    have hpos := (⟨a, transPageSize size⟩ : Block).size_pos
    have := h.not_inside_new hl hgr hb
    simp only at this he
    omega

/-! ## Rules for `kfree` -/

/-- The fields that only say something about each live block survive a `kfree`. -/
theorem nodup_erase_addr (h : LiveInv heap T L F live) :
    ((live.erase b).map HeapBlock.addr).Nodup :=
  h.distinct.sublist (List.erase_sublist.map _)

/-- A block that came from `page_alloc` goes. -/
theorem LiveInv.erasePage (h : LiveInv heap T L F live) (hl : ListsInv heap T L F' σ)
    (hb : b ∈ live) (hp : b.FromPage) : LiveInv heap T L F (live.erase b) := by
  have hsame : ∀ {c j Q}, Q ∈ L c j → (liveIn Q live).Perm (liveIn Q (live.erase b)) := fun hQ =>
    liveIn_erase_of_outside hb (outside_of_dvd (hl.dvd hQ) (h.dvd_of_fromPage hb hp))
  refine ⟨?_, ?_, fun c hc => h.pages c (List.mem_of_mem_erase hc),
    fun c hc => h.owned c (List.mem_of_mem_erase hc), nodup_erase_addr h⟩
  · intro c j Q hQ
    exact ((hsame hQ).symm.append_left (F Q)).trans (h.blocks c j Q hQ)
  · intro c j Q hQ hnil
    have hperm := hsame (List.mem_of_mem_tail hQ)
    rw [hnil] at hperm
    exact h.busy c j Q hQ hperm.eq_nil

/-- The live blocks of all slabs when a block of `S` has gone back. -/
theorem ListsInv.erase_perm (hl : ListsInv heap T L F' σ) (hb : b ∈ live) (hS : S ∈ L cpu k)
    (h1 : S < b.addr) (h2 : b.addr < S + 2 ^ 12) :
    (liveIn S live).Perm (b.addr :: liveIn S (live.erase b)) ∧
      ∀ {c j Q}, Q ∈ L c j → Q ≠ S → (liveIn Q live).Perm (liveIn Q (live.erase b)) :=
  ⟨liveIn_erase_of_inside hb h1 h2, fun hQ hne =>
    liveIn_erase_of_outside hb (outside_of_inside (hl.dvd hS) (hl.dvd hQ) hne h1 h2)⟩

/-- A block of the slab `S` becomes free, and either it is not the last one or `S` is the head. -/
theorem LiveInv.giveBack (h : LiveInv heap T L F live) (hl : ListsInv heap T L F' σ)
    (hb : b ∈ live) (hS : S ∈ L cpu k) (h1 : S < b.addr) (h2 : b.addr < S + 2 ^ 12)
    (hkeep : (F S).length + 1 ≠ slabBlockNum (k + S_8B) ∨ (L cpu k).head? = some S) :
    LiveInv heap T L (Function.update F S (b.addr :: F S)) (live.erase b) := by
  rcases hl.erase_perm hb hS h1 h2 with ⟨hself, hother⟩
  refine ⟨?_, ?_, fun c hc => h.pages c (List.mem_of_mem_erase hc),
    fun c hc => h.owned c (List.mem_of_mem_erase hc), nodup_erase_addr h⟩
  · intro c j Q hQ
    by_cases hne : Q = S
    · subst hne
      rw [Function.update_self]
      have hp := (hself.symm.append_left (F Q)).trans (h.blocks c j Q hQ)
      exact List.perm_middle.symm.trans hp
    · rw [Function.update_of_ne hne]
      exact ((hother hQ hne).symm.append_left (F Q)).trans (h.blocks c j Q hQ)
  · intro c j Q hQ hnil
    have hQ' := List.mem_of_mem_tail hQ
    by_cases hne : Q = S
    · subst hne
      rcases hl.unique hS hQ' with ⟨rfl, rfl⟩
      rcases hkeep with hlen | hhead
      · have htot := h.length hS
        rw [hself.length_eq, hnil] at htot
        exact hlen htot
      · have hnd := (hl.chain cpu k).nodup
        cases hL : L cpu k with
        | nil => simp [hL] at hS
        | cons P l =>
            rw [hL] at hhead hnd hQ
            obtain rfl := Option.some.inj hhead
            exact (List.nodup_cons.1 hnd).1 hQ
    · have hperm := hother hQ' hne
      rw [hnil] at hperm
      exact h.busy c j Q hQ hperm.eq_nil

/-- The last live block of the slab `S` behind `Q` becomes free, and `S` is unlinked. -/
theorem LiveInv.unlink (h : LiveInv heap T L F live) (hl : ListsInv heap T L F' σ)
    (hb : b ∈ live) {pre suf : List ℕ} {Q : ℕ} (hL : L cpu k = pre ++ Q :: S :: suf)
    (h1 : S < b.addr) (h2 : b.addr < S + 2 ^ 12)
    (hlast : (F S).length + 1 = slabBlockNum (k + S_8B)) :
    LiveInv heap T (setList L cpu k (pre ++ Q :: suf)) F (live.erase b) := by
  have hS : S ∈ L cpu k := by simp [hL]
  rcases hl.erase_perm hb hS h1 h2 with ⟨hself, hother⟩
  have hempty : liveIn S (live.erase b) = [] := by
    have htot := h.length hS
    rw [hself.length_eq, List.length_cons] at htot
    exact List.eq_nil_of_length_eq_zero (by omega)
  have hmem := fun {c j R} => hl.mem_unlink hL (c := c) (j := j) (R := R)
  refine ⟨?_, ?_, ?_, ?_, nodup_erase_addr h⟩
  · intro c j R hR
    rcases hmem.1 hR with ⟨hR, hne⟩
    exact ((hother hR hne).symm.append_left (F R)).trans (h.blocks c j R hR)
  · intro c j R hR hnil
    rcases hmem.1 (List.mem_of_mem_tail hR) with ⟨hR', hne⟩
    have hperm := hother hR' hne
    rw [hnil] at hperm
    refine h.busy c j R ?_ hperm.eq_nil
    by_cases hcj : c = cpu ∧ j = k
    · rcases hcj with ⟨rfl, rfl⟩
      rw [setList_self] at hR
      rw [hL]
      cases pre with
      | nil => exact List.mem_cons_of_mem _ hR
      | cons P pre =>
          simp only [List.cons_append, List.tail_cons, List.mem_append, List.mem_cons] at hR ⊢
          tauto
    · rwa [setList_of_ne hcj] at hR
  · intro c hc hp
    rcases h.pages c (List.mem_of_mem_erase hc) hp with ⟨hg, hsz, hnot⟩
    exact ⟨hg, hsz, fun d j hmem' => hnot d j (hmem.1 hmem').1⟩
  · intro c hc hp
    rcases h.owned c (List.mem_of_mem_erase hc) hp with ⟨d, j, R, hR, hsz, h3, h4⟩
    refine ⟨d, j, R, hmem.2 ⟨hR, fun he => ?_⟩, hsz, h3, h4⟩
    subst he
    have hin : c.addr ∈ liveIn R (live.erase b) := mem_liveIn.2 ⟨⟨c, hc, rfl⟩, h3, h4⟩
    rw [hempty] at hin
    cases hin

end LiveInv

end OsLab
