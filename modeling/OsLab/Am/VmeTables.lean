import OsLab.Am.Vme
import Mathlib.Data.Finset.Insert

/-! # The tables of address spaces in memory

`vmTables` reads the page tables of the address spaces in use out of the memory, as `teardown` does:
an entry leads on when it is present and for the user. The invariant says that
they are trees of their own, in pages that the allocator has handed out, and what
their entries look like.
-/

namespace OsLab.Vme

open Tables

/-- The page tables of the address spaces in `active`. -/
def vmTables (mem : ℕ → ℕ) (active : Finset ℕ) : Tables ℕ ℕ ℕ where
  root as := if as ∈ active then some (baseof (mem as)) else none
  next d p i :=
    if d + 1 < mmu.ptlevels ∧ i < 2 ^ 9 ∧ mem (p + 8 * i) &&& PTE_P ≠ 0 ∧
        mem (p + 8 * i) &&& PTE_U ≠ 0 then
      some (baseof (mem (p + 8 * i)))
    else none

/-- The pages of the kernel's tables, and of the address spaces themselves. -/
def fixedPages (active : Finset ℕ) : Set ℕ :=
  {p | p = PML4_ADDR ∨ p = PDPT_ADDR ∨ ∃ as ∈ active, p = pageOf as}

/-- `p` is a page table of an address space in use. -/
def InTables (mem : ℕ → ℕ) (active : Finset ℕ) (p : ℕ) : Prop :=
  ∃ as path, (vmTables mem active).table as path = some p

/-- The page table entry at index `i` of the last table on a path, 0 where there is none. -/
def vmLeaf (mem : ℕ → ℕ) (active : Finset ℕ) (as : ℕ) (path : List ℕ) (i : ℕ) : ℕ :=
  ((vmTables mem active).table as path).elim 0 fun p => mem (p + 8 * i)

/-- The pages that an allocator has at all. -/
structure PagePool where
  pages : Set ℕ
  aligned : ∀ p ∈ pages, 2 ^ 12 ∣ p
  word : ∀ p ∈ pages, p < 2 ^ 64

/-- Where `avail` are the pages that the allocator can hand out. -/
structure VmInv (pool : PagePool) (avail : Set ℕ) (mem : ℕ → ℕ) (active : Finset ℕ) : Prop where
  apart : (vmTables mem active).Apart
  fixed : ∀ p ∈ fixedPages active, p ∉ avail
  kernel : KernelTables mem
  cell : ∀ as ∈ active, ∃ p, 2 ^ 12 ∣ p ∧ p < 2 ^ 64 ∧ mem as = p + 5
  page : ∀ p, InTables mem active p → p ∈ pool.pages ∧ p ∉ avail ∧ p ∉ fixedPages active
  -- the first entry of a root is that of the kernel, of the others only one is used
  slot : ∀ as p, (vmTables mem active).table as [] = some p → mem p = PDPT_ADDR + 3
  user : ∀ as i p, (vmTables mem active).table as [i] = some p → i = 32
  entry : ∀ as path p, (vmTables mem active).table as path = some p → path.length < 3 →
    ∀ i < 2 ^ 9, mem (p + 8 * i) = 0 ∨ (path = [] ∧ i = 0) ∨
      ∃ q, (vmTables mem active).table as (i :: path) = some q ∧ mem (p + 8 * i) = q + 7

section Reading

variable {mem mem' : ℕ → ℕ} {active active' : Finset ℕ} {as p q i d : ℕ} {path : List ℕ}

theorem next_eq_some : (vmTables mem active).next d p i = some q ↔
    (d < 3 ∧ i < 2 ^ 9 ∧ mem (p + 8 * i) &&& PTE_P ≠ 0 ∧ mem (p + 8 * i) &&& PTE_U ≠ 0) ∧
      baseof (mem (p + 8 * i)) = q := by
  have hlevel : d + 1 < mmu.ptlevels ↔ d < 3 := by
    change d + 1 < 4 ↔ d < 3
    omega
  unfold vmTables
  simp only [hlevel]
  split
  · rename_i hc
    rw [Option.some.injEq, and_iff_right hc]
  · rename_i hc
    exact iff_of_false (by rintro ⟨⟩) fun h => hc h.1

theorem root_eq_some : (vmTables mem active).root as = some p ↔
    as ∈ active ∧ baseof (mem as) = p := by
  unfold vmTables
  simp only
  split
  · rename_i hc
    rw [Option.some.injEq, and_iff_right hc]
  · rename_i hc
    exact iff_of_false (by rintro ⟨⟩) fun h => hc h.1

/-- An entry of 0 leads nowhere. -/
theorem next_zero (h : mem (p + 8 * i) = 0) : (vmTables mem active).next d p i = none := by
  rw [Option.eq_none_iff_forall_ne_some]
  intro q hq
  have hp := (next_eq_some.1 hq).1.2.2.1
  rw [h, Nat.zero_and] at hp
  exact hp rfl

/-- What `ptwalk` writes in an entry. -/
theorem flags_table (hq : 2 ^ 12 ∣ q) : (q + 7) &&& PTE_P ≠ 0 ∧ (q + 7) &&& PTE_U ≠ 0 := by
  have hmod : (q + 7) % 2 ^ 12 = 7 := by omega
  rw [Words.and_low (k := 12) (f := PTE_P) (by decide), Words.and_low (k := 12) (f := PTE_U) (by decide), hmod]
  decide

theorem next_table (hd : d < 3) (hi : i < 2 ^ 9) (hq : 2 ^ 12 ∣ q) (hlt : q < 2 ^ 64)
    (h : mem (p + 8 * i) = q + 7) : (vmTables mem active).next d p i = some q := by
  rw [next_eq_some, h]
  exact ⟨⟨hd, hi, flags_table hq⟩, baseof_page hq (by decide) hlt⟩

/-- The next table depends on the one entry. -/
theorem next_congr (h : mem' (p + 8 * i) = mem (p + 8 * i)) :
    (vmTables mem' active').next d p i = (vmTables mem active).next d p i := by
  unfold vmTables
  simp only [h]

theorem next_index (h : (vmTables mem active).next d p i = some q) : i < 2 ^ 9 :=
  (next_eq_some.1 h).1.2.1

theorem table_depth (h : (vmTables mem active).table as path = some p) : path.length ≤ 3 := by
  cases path with
  | nil => exact Nat.zero_le 3
  | cons i path =>
      rcases table_cons_eq_some.1 h with ⟨q, -, hnext⟩
      exact (next_eq_some.1 hnext).1.1

theorem table_index (h : (vmTables mem active).table as (i :: path) = some p) : i < 2 ^ 9 := by
  rcases table_cons_eq_some.1 h with ⟨q, -, hnext⟩
  exact next_index hnext

theorem table_active (h : (vmTables mem active).table as path = some p) : as ∈ active := by
  have happ : (vmTables mem active).table as (path ++ []) = some p := by rwa [List.append_nil]
  rcases table_of_append happ with ⟨q, hq⟩
  exact (root_eq_some.1 hq).1

theorem vmLeaf_of_table (h : (vmTables mem active).table as path = some p) :
    vmLeaf mem active as path i = mem (p + 8 * i) := by
  rw [vmLeaf, h]
  rfl

theorem vmLeaf_of_none (h : (vmTables mem active).table as path = none) :
    vmLeaf mem active as path i = 0 := by
  rw [vmLeaf, h]
  rfl

end Reading

section Inv

variable {pool : PagePool} {avail avail' : Set ℕ} {mem mem' : ℕ → ℕ} {active : Finset ℕ} {as p q i : ℕ}
  {path : List ℕ}

theorem VmInv.aligned (h : VmInv pool avail mem active)
    (hp : (vmTables mem active).table as path = some p) : 2 ^ 12 ∣ p :=
  pool.aligned p (h.page p ⟨as, path, hp⟩).1

theorem VmInv.root (h : VmInv pool avail mem active) (has : as ∈ active) :
    ∃ p, (vmTables mem active).table as [] = some p ∧ mem as = p + 5 := by
  rcases h.cell as has with ⟨p, hp, hlt, hcell⟩
  refine ⟨p, root_eq_some.2 ⟨has, ?_⟩, hcell⟩
  rw [hcell, baseof_page hp (by decide) hlt]

/-- An entry of a table determines the table and the index. -/
theorem VmInv.entry_inj (h : VmInv pool avail mem active) {as' p' i' : ℕ} {path' : List ℕ}
    (hp : (vmTables mem active).table as path = some p)
    (hp' : (vmTables mem active).table as' path' = some p') (hi : i < 2 ^ 9) (hi' : i' < 2 ^ 9)
    (he : p + 8 * i = p' + 8 * i') : (as = as' ∧ path = path') ∧ p = p' ∧ i = i' := by
  have hpage := congrArg pageOf he
  rw [pageOf_entry (h.aligned hp) hi, pageOf_entry (h.aligned hp') hi'] at hpage
  subst hpage
  exact ⟨h.apart hp hp', rfl, by omega⟩

/-- A cell is in no table. -/
theorem VmInv.cell_ne (h : VmInv pool avail mem active)
    (hp : (vmTables mem active).table as path = some p) (hi : i < 2 ^ 9) {as' : ℕ}
    (has' : as' ∈ active) : as' ≠ p + 8 * i := by
  rintro rfl
  refine (h.page p ⟨as, path, hp⟩).2.2 (Or.inr (Or.inr ⟨_, has', ?_⟩))
  rw [pageOf_entry (h.aligned hp) hi]

/-- The kernel's tables stay. -/
theorem KernelTables.congr (h : KernelTables mem)
    (hmem : ∀ a, pageOf a = PML4_ADDR ∨ pageOf a = PDPT_ADDR → mem' a = mem a) :
    KernelTables mem' := by
  refine ⟨?_, fun i hi => ?_⟩
  · rw [hmem _ (Or.inl (pageOf_page (by decide)))]
    exact h.pml4
  · rw [hmem _ (Or.inr (pageOf_entry (by decide) hi))]
    exact h.pdpt i hi

/-! ### The same tables, or those of fewer address spaces -/

/-- `mem'` has the same entries in the tables of `active'`. -/
structure SameEntries (mem mem' : ℕ → ℕ) (active active' : Finset ℕ) : Prop where
  subset : active' ⊆ active
  cell : ∀ as ∈ active', mem' as = mem as
  entry : ∀ as ∈ active', ∀ path p, (vmTables mem active).table as path = some p →
    path.length < 3 → ∀ i < 2 ^ 9, mem' (p + 8 * i) = mem (p + 8 * i)

variable {active' : Finset ℕ}

theorem SameEntries.kept (h : SameEntries mem mem' active active') :
    Kept (vmTables mem active) (vmTables mem' active') (· ∈ active') := by
  refine ⟨fun as' t => ?_, fun as' path' t has' ht j => ?_⟩
  · rw [root_eq_some, root_eq_some]
    constructor
    · rintro ⟨has', hb⟩
      exact ⟨has', h.subset has', by rwa [← h.cell as' has']⟩
    · rintro ⟨has', -, hb⟩
      exact ⟨has', by rwa [h.cell as' has']⟩
  · by_cases hin : path'.length < 3 ∧ j < 2 ^ 9
    · exact next_congr (h.entry as' has' path' t ht hin.1 j hin.2)
    · have hnone : ∀ m act, (vmTables m act).next path'.length t j = none := by
        intro m act
        rw [Option.eq_none_iff_forall_ne_some]
        intro u hu
        exact hin ⟨(next_eq_some.1 hu).1.1, next_index hu⟩
      rw [hnone, hnone]

theorem SameEntries.inTables (h : SameEntries mem mem' active active')
    (hp : InTables mem' active' p) : InTables mem active p := by
  rcases hp with ⟨as', path', hp⟩
  exact ⟨as', path', (h.kept.table_iff.1 hp).2⟩

/-- The invariant with another memory, other pages available and fewer address spaces. -/
theorem VmInv.mono (h : VmInv pool avail mem active) (hs : SameEntries mem mem' active active')
    (hkernel : KernelTables mem') (hfixed : ∀ p ∈ fixedPages active', p ∉ avail')
    (hpage : ∀ p, InTables mem' active' p → p ∉ avail') : VmInv pool avail' mem' active' := by
  refine ⟨h.apart.keep hs.kept, hfixed, hkernel, ?_, ?_, ?_, ?_, ?_⟩
  · intro as' has'
    rw [hs.cell as' has']
    exact h.cell as' (hs.subset has')
  · intro t ht
    rcases h.page t (hs.inTables ht) with ⟨hpool, -, hfix⟩
    refine ⟨hpool, hpage t ht, fun hin => hfix ?_⟩
    refine hin.imp_right (Or.imp_right ?_)
    rintro ⟨as', has', he⟩
    exact ⟨as', hs.subset has', he⟩
  · intro as' t ht
    rcases hs.kept.table_iff.1 ht with ⟨has', hold⟩
    exact (hs.entry as' has' [] t hold (by decide) 0 (by decide)).trans (h.slot as' t hold)
  · intro as' j t ht
    exact h.user as' j t (hs.kept.table_iff.1 ht).2
  · intro as' path' t ht hlen j hj
    rcases hs.kept.table_iff.1 ht with ⟨has', hold⟩
    rw [hs.entry as' has' path' t hold hlen j hj]
    refine (h.entry as' path' t hold hlen j hj).imp_right (Or.imp_right ?_)
    rintro ⟨u, hu, he⟩
    exact ⟨u, hs.kept.table_iff.2 ⟨has', hu⟩, he⟩

/-- An entry of a last table is stored. -/
theorem VmInv.write_leaf (h : VmInv pool avail mem active)
    (hp : (vmTables mem active).table as path = some p) (hlen : path.length = 3) (hi : i < 2 ^ 9)
    (w : ℕ) : VmInv pool avail (Function.update mem (p + 8 * i) w) active ∧
      (∀ as' path', (vmTables (Function.update mem (p + 8 * i) w) active).table as' path' =
        (vmTables mem active).table as' path') ∧
      ∀ as' path' j, path'.length = 3 → j < 2 ^ 9 →
        vmLeaf (Function.update mem (p + 8 * i) w) active as' path' j =
          if as' = as ∧ path' = path ∧ j = i then w else vmLeaf mem active as' path' j := by
  have hs : SameEntries mem (Function.update mem (p + 8 * i) w) active active := by
    refine ⟨Finset.Subset.refl _, fun as' has' => ?_, fun as' _ path' t ht hlen' j hj => ?_⟩
    · exact Function.update_of_ne (h.cell_ne hp hi has') _ _
    · refine Function.update_of_ne (fun he => ?_) _ _
      obtain ⟨⟨-, rfl⟩, -⟩ := h.entry_inj ht hp hj hi he
      omega
  have htable : ∀ as' path', (vmTables (Function.update mem (p + 8 * i) w) active).table as' path' =
      (vmTables mem active).table as' path' := by
    intro as' path'
    ext t
    exact hs.kept.table_iff.trans (and_iff_right_of_imp fun ht => table_active ht)
  refine ⟨h.mono hs (h.kernel.congr fun a ha => ?_) h.fixed
    (fun t ht => (h.page t (hs.inTables ht)).2.1), htable, fun as' path' j hlen' hj => ?_⟩
  · refine Function.update_of_ne (fun he => ?_) _ _
    rw [he, pageOf_entry (h.aligned hp) hi] at ha
    exact (h.page p ⟨as, path, hp⟩).2.2 (ha.imp_right Or.inl)
  · unfold vmLeaf
    rw [htable]
    cases ht : (vmTables mem active).table as' path' with
    | none =>
        rw [if_neg]
        · rfl
        · rintro ⟨rfl, rfl, -⟩
          rw [hp] at ht
          cases ht
    | some t =>
        simp only [Option.elim_some]
        by_cases hc : as' = as ∧ path' = path ∧ j = i
        · rcases hc with ⟨rfl, rfl, rfl⟩
          obtain rfl := Option.some.inj (hp.symm.trans ht)
          rw [if_pos ⟨rfl, rfl, rfl⟩, Function.update_self]
        · rw [if_neg hc]
          refine Function.update_of_ne (fun he => hc ?_) _ _
          rcases h.entry_inj ht hp hj hi he with ⟨⟨rfl, rfl⟩, -, rfl⟩
          exact ⟨rfl, rfl, rfl⟩

/-! ### A table more -/

/-- A fresh page `q` of zeros under entry `i` of the table `p`. -/
structure Linked (mem mem' : ℕ → ℕ) (p i q : ℕ) : Prop where
  zero : ∀ j < 2 ^ 9, mem' (q + 8 * j) = 0
  entry : mem' (p + 8 * i) = q + 7
  other : ∀ a, pageOf a ≠ q → a ≠ p + 8 * i → mem' a = mem a

/-- What is known when `ptwalk` finds entry `i` of the table `p` empty and takes the page `q`. -/
structure Missing (pool : PagePool) (avail : Set ℕ) (mem : ℕ → ℕ) (active : Finset ℕ) (as : ℕ)
    (path : List ℕ) (p i q : ℕ) : Prop where
  table : (vmTables mem active).table as path = some p
  depth : path.length < 3
  index : i < 2 ^ 9
  user : path = [] → i = 32
  empty : mem (p + 8 * i) = 0
  free : q ∈ avail
  page : q ∈ pool.pages

variable (hm : Missing pool avail mem active as path p i q) (hl : Linked mem mem' p i q)

include hm in
/-- The new page is not that of a table. -/
theorem VmInv.fresh (h : VmInv pool avail mem active) (as' : ℕ) (path' : List ℕ) :
    (vmTables mem active).table as' path' ≠ some q :=
  fun hq => (h.page q ⟨as', path', hq⟩).2.1 hm.free

include hm hl in
/-- Outside of the one entry, the tables that were there stay. -/
theorem VmInv.linked_entry (h : VmInv pool avail mem active) {as' p' j : ℕ} {path' : List ℕ}
    (hp' : (vmTables mem active).table as' path' = some p') (hj : j < 2 ^ 9) :
    (as' = as ∧ path' = path ∧ j = i ∧ mem' (p' + 8 * j) = q + 7 ∧ mem (p' + 8 * j) = 0) ∨
      (¬ (as' = as ∧ path' = path ∧ j = i) ∧ mem' (p' + 8 * j) = mem (p' + 8 * j)) := by
  by_cases heq : p' + 8 * j = p + 8 * i
  · rcases h.entry_inj hp' hm.table hj hm.index heq with ⟨⟨rfl, rfl⟩, -, rfl⟩
    exact Or.inl ⟨rfl, rfl, rfl, heq ▸ hl.entry, heq ▸ hm.empty⟩
  · refine Or.inr ⟨?_, hl.other _ ?_ heq⟩
    · rintro ⟨rfl, rfl, rfl⟩
      exact heq (by rw [Option.some.inj (hp'.symm.trans hm.table)])
    · rw [pageOf_entry (h.aligned hp') hj]
      rintro rfl
      exact h.fresh hm as' path' hp'

include hm hl in
theorem VmInv.added (h : VmInv pool avail mem active) :
    Added (vmTables mem active) (vmTables mem' active) as (i :: path) q := by
  have hcell : ∀ as' ∈ active, mem' as' = mem as' := by
    intro as' has'
    refine hl.other _ (fun hq => ?_) (h.cell_ne hm.table hm.index has')
    exact h.fixed q (Or.inr (Or.inr ⟨as', has', hq.symm⟩)) hm.free
  refine ⟨h.fresh hm, fun d j => ?_, ?_, fun as' t => ?_, ?_⟩
  · rw [Option.eq_none_iff_forall_ne_some]
    intro t ht
    rw [next_zero (hl.zero j (next_index ht))] at ht
    cases ht
  · intro j path' he
    obtain ⟨-, rfl⟩ := List.cons.inj he
    exact ⟨p, hm.table⟩
  · rw [root_eq_some, root_eq_some]
    constructor
    · rintro ⟨has', hb⟩
      exact Or.inl ⟨has', by rwa [← hcell as' has']⟩
    · rintro (⟨has', hb⟩ | ⟨-, hnil, -⟩)
      · exact ⟨has', by rwa [hcell as' has']⟩
      · cases hnil
  · intro as' path' p' hp' j t
    by_cases hj : j < 2 ^ 9
    · rcases h.linked_entry hm hl hp' hj with ⟨rfl, rfl, rfl, hnew, hold⟩ | ⟨hne, hsame⟩
      · rw [next_zero hold, next_table hm.depth hm.index (pool.aligned q hm.page) (pool.word q hm.page) hnew]
        simp [eq_comm]
      · rw [next_congr hsame]
        refine (or_iff_left ?_).symm
        rintro ⟨rfl, hpath, -⟩
        obtain ⟨rfl, rfl⟩ := List.cons.inj hpath
        exact hne ⟨rfl, rfl, rfl⟩
    · constructor
      · exact fun hn => absurd (next_index hn) hj
      · rintro (hn | ⟨-, hpath, -⟩)
        · exact absurd (next_index hn) hj
        · obtain ⟨rfl, -⟩ := List.cons.inj hpath
          exact absurd hm.index hj

include hm hl in
/-- A new table keeps the invariant. -/
theorem VmInv.link (h : VmInv pool avail mem active) : VmInv pool (avail \ {q}) mem' active := by
  have hadd := h.added hm hl
  have hfixed : q ∉ fixedPages active := fun hq => h.fixed q hq hm.free
  have hcell : ∀ as' ∈ active, mem' as' = mem as' := by
    intro as' has'
    refine hl.other _ (fun hq => ?_) (h.cell_ne hm.table hm.index has')
    exact hfixed (Or.inr (Or.inr ⟨as', has', hq.symm⟩))
  refine ⟨h.apart.add hadd, fun p' hp' hav => h.fixed p' hp' hav.1, ?_, ?_, ?_, ?_, ?_, ?_⟩
  · refine h.kernel.congr fun a ha => hl.other a ?_ ?_
    · rintro rfl
      exact hfixed (ha.imp_right Or.inl)
    · rintro rfl
      rw [pageOf_entry (h.aligned hm.table) hm.index] at ha
      exact (h.page p ⟨as, path, hm.table⟩).2.2 (ha.imp_right Or.inl)
  · intro as' has'
    rw [hcell as' has']
    exact h.cell as' has'
  · rintro t ⟨as', path', ht⟩
    rcases hadd.table_iff.1 ht with hold | ⟨-, -, rfl⟩
    · rcases h.page t ⟨as', path', hold⟩ with ⟨hpage, hav, hfix⟩
      exact ⟨hpage, fun hin => hav hin.1, hfix⟩
    · exact ⟨hm.page, fun hin => hin.2 rfl, hfixed⟩
  · intro as' t ht
    rcases hadd.table_iff.1 ht with hold | ⟨-, hnil, -⟩
    · rcases h.linked_entry hm hl hold (j := 0) (by decide) with ⟨-, hpath, hi, -, -⟩ | ⟨-, hsame⟩
      · have h32 := hm.user hpath.symm
        omega
      · exact hsame.trans (h.slot as' t hold)
    · cases hnil
  · intro as' j t ht
    rcases hadd.table_iff.1 ht with hold | ⟨-, hpath, -⟩
    · exact h.user as' j t hold
    · obtain ⟨rfl, hnil⟩ := List.cons.inj hpath
      exact hm.user hnil.symm
  · intro as' path' t ht hlen j hj
    rcases hadd.table_iff.1 ht with hold | ⟨rfl, rfl, rfl⟩
    · rcases h.linked_entry hm hl hold hj with ⟨rfl, rfl, rfl, hnew, -⟩ | ⟨-, hsame⟩
      · exact Or.inr (Or.inr ⟨q, hadd.table_iff.2 (Or.inr ⟨rfl, rfl, rfl⟩), hnew⟩)
      · rw [hsame]
        refine (h.entry as' path' t hold hlen j hj).imp_right (Or.imp_right ?_)
        rintro ⟨u, hu, he⟩
        exact ⟨u, hadd.table_iff.2 (Or.inl hu), he⟩
    · exact Or.inl (hl.zero j hj)

include hm hl in
/-- All pages that are entered are as before. -/
theorem VmInv.link_leaf (h : VmInv pool avail mem active) {as' j : ℕ} {path' : List ℕ}
    (hlen : path'.length = 3) (hj : j < 2 ^ 9) :
    vmLeaf mem' active as' path' j = vmLeaf mem active as' path' j := by
  have hadd := h.added hm hl
  cases ht : (vmTables mem active).table as' path' with
  | some t =>
      rw [vmLeaf_of_table ht, vmLeaf_of_table (hadd.table_iff.2 (Or.inl ht))]
      rcases h.linked_entry hm hl ht hj with ⟨-, rfl, -⟩ | ⟨-, hsame⟩
      · exact absurd hm.depth (by omega)
      · exact hsame
  | none =>
      rw [vmLeaf_of_none ht]
      cases ht' : (vmTables mem' active).table as' path' with
      | none => exact vmLeaf_of_none ht'
      | some t =>
          rcases hadd.table_iff.1 ht' with hold | ⟨-, -, rfl⟩
          · rw [ht] at hold
            cases hold
          · rw [vmLeaf_of_table ht']
            exact hl.zero j hj

end Inv

end OsLab.Vme
