import OsLab.Am.VmeWalk
import OsLab.Lib.Run

/-! # Address spaces (`protect` and `unprotect` of `vme.c`)

`protect` makes an address space with the kernel's entry and nothing else, `unprotect` gives its
tables back. What the processor makes of the tables is `translate`: after any calls, on any
number of address spaces, each one maps just what was asked for, and the kernel's
area to itself, out of the user's reach. The page of a table goes back exactly once.
-/

namespace OsLab.Vme

open Tables Trace

section Protect

variable {σ : Type*} {A : PageAllocator σ} {pool : PagePool} {avail : σ → Set ℕ} {v v' : Vm σ}
  {active : Finset ℕ} {as : ℕ} {m : Mappings}

/-- The place of an `AddrSpace` that is not yet in use: it is no place for a table. -/
structure NewCell (avail : Set ℕ) (mem : ℕ → ℕ) (active : Finset ℕ) (as : ℕ) : Prop where
  new : as ∉ active
  notFree : pageOf as ∉ avail
  notTable : ¬ InTables mem active (pageOf as)
  notPml4 : pageOf as ≠ PML4_ADDR
  notPdpt : pageOf as ≠ PDPT_ADDR

/-- A root `q` with the kernel's entry alone. -/
structure Rooted (mem mem' : ℕ → ℕ) (as q : ℕ) : Prop where
  cell : mem' as = q + 5
  slot : mem' q = PDPT_ADDR + 3
  zero : ∀ j < 2 ^ 9, j ≠ 0 → mem' (q + 8 * j) = 0
  other : ∀ a, pageOf a ≠ q → a ≠ as → mem' a = mem a

/-- What `protect` does when it returns. -/
theorem protect_rooted (hA : A.Lawful pool avail) (h : VmInv pool (avail v.pages) v.mem active)
    (hnew : NewCell (avail v.pages) v.mem active as) (hr : protect A as v = some v') :
    ∃ q, q ∈ avail v.pages ∧ avail v'.pages = avail v.pages \ {q} ∧ Rooted v.mem v'.mem as q := by
  rcases Option.map_eq_some_iff.1 hr with ⟨⟨q, w⟩, hw, rfl⟩
  unfold pgallocz at hw
  simp only at hw
  split at hw
  · cases hw
  rename_i hnull
  obtain ⟨rfl, rfl⟩ := Prod.mk.inj (Option.some.inj hw)
  rcases hA.alloc v.pages hnull with ⟨hq, hav⟩
  have hpage := pool.aligned _ (hA.pool _ _ hq)
  have hcell : ∀ j < 2 ^ 9, (A.pgalloc mmu.pgsize v.pages).1 + 8 * j ≠ as := by
    rintro j hj rfl
    refine hnew.notFree ?_
    rwa [pageOf_entry hpage hj]
  have hpml4 : pageOf PML4_ADDR ≠ (A.pgalloc mmu.pgsize v.pages).1 := by
    intro he
    rw [pageOf_page (by decide)] at he
    exact h.fixed _ (Or.inl rfl) (he ▸ hq)
  refine ⟨_, hq, hav, ?_⟩
  simp only
  refine ⟨?_, ?_, fun j hj hj0 => ?_, fun a ha hne => ?_⟩
  · rw [Function.update_self, Nat.lor_assoc]
    exact Words.or_low hpage (by decide)
  · have hne := hcell 0 (by decide)
    rw [Nat.mul_zero, Nat.add_zero] at hne
    rw [Function.update_of_ne hne, copyKernel_eq, Function.update_self,
      zeroWords_other hpage (by decide) hpml4]
    exact h.kernel.pml4
  · rw [Function.update_of_ne (hcell j hj), copyKernel_eq, Function.update_of_ne (by omega)]
    exact zeroWords_entry hj
  · have hne' : a ≠ (A.pgalloc mmu.pgsize v.pages).1 := fun he => ha (by rw [he, pageOf_page hpage])
    rw [Function.update_of_ne hne, copyKernel_eq, Function.update_of_ne hne',
      zeroWords_other hpage (by decide) ha]

end Protect

section Rooted

variable {pool : PagePool} {avail : Set ℕ} {mem mem' : ℕ → ℕ} {active : Finset ℕ} {as q : ℕ}

variable (hnew : NewCell avail mem active as) (hq : q ∈ avail) (hpool : q ∈ pool.pages)
  (hr : Rooted mem mem' as q)

include hnew hq hr in
/-- The entries of the tables that were there stay. -/
theorem VmInv.rooted_entry (h : VmInv pool avail mem active) {as' t j : ℕ} {path : List ℕ}
    (ht : (vmTables mem active).table as' path = some t) (hj : j < 2 ^ 9) :
    mem' (t + 8 * j) = mem (t + 8 * j) := by
  have hpage := pageOf_entry (h.aligned ht) hj
  refine hr.other _ ?_ ?_
  · rintro he
    rw [hpage] at he
    exact (h.page t ⟨as', path, ht⟩).2.1 (he ▸ hq)
  · rintro rfl
    rw [← hpage] at ht
    exact hnew.notTable ⟨as', path, ht⟩

include hnew hq hr in
theorem VmInv.rooted_cell (h : VmInv pool avail mem active) {as' : ℕ} (has' : as' ∈ active) :
    mem' as' = mem as' := by
  refine hr.other _ (fun he => ?_) ?_
  · exact h.fixed q (Or.inr (Or.inr ⟨as', has', he.symm⟩)) hq
  · rintro rfl
    exact hnew.new has'

include hnew hq hpool hr in
theorem VmInv.root_added (h : VmInv pool avail mem active) :
    Added (vmTables mem active) (vmTables mem' (insert as active)) as [] q := by
  have hbase : baseof (mem' as) = q := by
    rw [hr.cell, baseof_page (pool.aligned q hpool) (by decide) (pool.word q hpool)]
  refine ⟨fun as' path' ht => (h.page q ⟨as', path', ht⟩).2.1 hq, fun d j => ?_, ?_,
    fun as' t => ?_, ?_⟩
  · rw [Option.eq_none_iff_forall_ne_some]
    intro t ht
    rcases Nat.eq_zero_or_pos j with rfl | hj
    · -- the kernel's entry is not for the user
      have huser := (next_eq_some.1 ht).1.2.2.2
      rw [Nat.mul_zero, Nat.add_zero, hr.slot] at huser
      exact huser (by decide)
    · rw [next_zero (hr.zero j (next_index ht) (by omega))] at ht
      cases ht
  · rintro j path' ⟨⟩
  · rw [root_eq_some, root_eq_some, Finset.mem_insert]
    constructor
    · rintro ⟨rfl | has', hb⟩
      · exact Or.inr ⟨rfl, rfl, hb.symm.trans hbase⟩
      · exact Or.inl ⟨has', by rwa [← h.rooted_cell hnew hq hr has']⟩
    · rintro (⟨has', hb⟩ | ⟨rfl, -, rfl⟩)
      · exact ⟨Or.inr has', by rwa [h.rooted_cell hnew hq hr has']⟩
      · exact ⟨Or.inl rfl, hbase⟩
  · intro as' path' t ht j u
    have hsame : (vmTables mem' (insert as active)).next path'.length t j =
        (vmTables mem active).next path'.length t j := by
      by_cases hj : j < 2 ^ 9
      · exact next_congr (h.rooted_entry hnew hq hr ht hj)
      · have hnone : ∀ n act, (vmTables n act).next path'.length t j = none := by
          intro n act
          rw [Option.eq_none_iff_forall_ne_some]
          exact fun u hu => hj (next_index hu)
        rw [hnone, hnone]
    rw [hsame]
    refine (or_iff_left ?_).symm
    rintro ⟨-, ⟨⟩, -⟩

include hnew hq hpool hr in
/-- A new address space keeps the invariant. -/
theorem VmInv.rooted (h : VmInv pool avail mem active) :
    VmInv pool (avail \ {q}) mem' (insert as active) := by
  have hadd := h.root_added hnew hq hpool hr
  have hfixed : ∀ p ∈ fixedPages (insert as active), p ∈ fixedPages active ∨ p = pageOf as := by
    rintro p (rfl | rfl | ⟨as', has', rfl⟩)
    · exact Or.inl (Or.inl rfl)
    · exact Or.inl (Or.inr (Or.inl rfl))
    · rcases Finset.mem_insert.1 has' with rfl | has'
      · exact Or.inr rfl
      · exact Or.inl (Or.inr (Or.inr ⟨as', has', rfl⟩))
  refine ⟨h.apart.add hadd, fun p hp hav => ?_, ?_, ?_, ?_, ?_, ?_, ?_⟩
  · rcases hfixed p hp with hp | rfl
    · exact h.fixed p hp hav.1
    · exact hnew.notFree hav.1
  · refine h.kernel.congr fun a ha => hr.other a ?_ ?_
    · rintro rfl
      exact h.fixed _ (ha.imp_right Or.inl) hq
    · rintro rfl
      exact ha.elim hnew.notPml4 hnew.notPdpt
  · intro as' has'
    rcases Finset.mem_insert.1 has' with rfl | has'
    · exact ⟨q, pool.aligned q hpool, pool.word q hpool, hr.cell⟩
    · rw [h.rooted_cell hnew hq hr has']
      exact h.cell as' has'
  · rintro t ⟨as', path', ht⟩
    rcases hadd.table_iff.1 ht with hold | ⟨-, -, rfl⟩
    · rcases h.page t ⟨as', path', hold⟩ with ⟨hpage, hav, hfix⟩
      refine ⟨hpage, fun hin => hav hin.1, fun hin => ?_⟩
      rcases hfixed t hin with hin | rfl
      · exact hfix hin
      · exact hnew.notTable ⟨as', path', hold⟩
    · refine ⟨hpool, fun hin => hin.2 rfl, fun hin => ?_⟩
      rcases hfixed t hin with hin | rfl
      · exact h.fixed t hin hq
      · exact hnew.notFree hq
  · intro as' t ht
    rcases hadd.table_iff.1 ht with hold | ⟨-, -, rfl⟩
    · exact (h.rooted_entry hnew hq hr hold (j := 0) (by decide)).trans (h.slot as' t hold)
    · exact hr.slot
  · intro as' j t ht
    rcases hadd.table_iff.1 ht with hold | ⟨-, ⟨⟩, -⟩
    exact h.user as' j t hold
  · intro as' path' t ht hlen j hj
    rcases hadd.table_iff.1 ht with hold | ⟨rfl, rfl, rfl⟩
    · rw [h.rooted_entry hnew hq hr hold hj]
      refine (h.entry as' path' t hold hlen j hj).imp_right (Or.imp_right ?_)
      rintro ⟨u, hu, he⟩
      exact ⟨u, hadd.table_iff.2 (Or.inl hu), he⟩
    · by_cases hj0 : j = 0
      · exact Or.inr (Or.inl ⟨rfl, hj0⟩)
      · exact Or.inl (hr.zero j hj hj0)

end Rooted

/-! ## Giving the tables back -/

section Teardown

variable {σ : Type*} {A : PageAllocator σ} {pool : PagePool} {avail : σ → Set ℕ} {v : Vm σ}
  {mem : ℕ → ℕ} {active : Finset ℕ} {as p d n : ℕ} {s : σ}

/-- `teardown` frees the tables under a table, and then the table. -/
theorem teardown_eq (active : Finset ℕ) (hd : d + n = 4) :
    teardown A mem n (d + 1) p s =
      ((vmTables mem active).collect (List.range (2 ^ 9)) n d p).foldl (fun s p => A.pgfree p s)
        s := by
  induction n generalizing d p s with
  | zero => rfl
  | succ n ih =>
      have hbits : 1 <<< (mmu.pgtables (d + 1)).bits = 2 ^ 9 := by
        obtain rfl | rfl | rfl | rfl : d = 0 ∨ d = 1 ∨ d = 2 ∨ d = 3 := by omega
        all_goals rfl
      rw [teardown, hbits, collect, List.foldl_append, List.foldl_cons, List.foldl_nil,
        List.foldl_flatMap]
      refine (if_pos (Nat.le_add_left 1 d)).trans (congrArg (A.pgfree p) ?_)
      refine List.foldl_ext _ _ _ fun s i hi => ?_
      have hi' := List.mem_range.1 hi
      cases hnext : (vmTables mem active).next d p i with
      | some q =>
          rcases next_eq_some.1 hnext with ⟨⟨-, -, hP, hU⟩, rfl⟩
          rw [if_pos ⟨hP, hU⟩, Option.toList_some, List.flatMap_singleton]
          exact ih (by omega)
      | none =>
          rw [Option.toList_none, List.flatMap_nil, List.foldl_nil]
          split
          · rename_i hPU
            -- a page that is mapped, at the last level
            by_cases hlast : d < 3
            · have hsome : (vmTables mem active).next d p i = some _ :=
                next_eq_some.2 ⟨⟨hlast, hi', hPU.1, hPU.2⟩, rfl⟩
              rw [hnext] at hsome
              cases hsome
            · obtain rfl : n = 0 := by omega
              rfl
          · rfl

/-- The tables of an address space, in the order in which they are freed. -/
def tablesOf (mem : ℕ → ℕ) (active : Finset ℕ) (as : ℕ) : List ℕ :=
  (vmTables mem active).collect (List.range (2 ^ 9)) 4 0 (baseof (mem as))

theorem table_root (has : as ∈ active) :
    (vmTables mem active).table as [] = some (baseof (mem as)) :=
  root_eq_some.2 ⟨has, rfl⟩

theorem within_root : Within (vmTables mem active) as [] (List.range (2 ^ 9)) 4 := by
  refine ⟨fun ext i q hq => List.mem_range.2 (table_index hq), fun ext q hq => ?_⟩
  have hlen := table_depth hq
  rw [List.append_nil] at hlen
  exact Nat.lt_succ_of_le hlen

theorem mem_tablesOf (has : as ∈ active) :
    p ∈ tablesOf mem active as ↔ ∃ path, (vmTables mem active).table as path = some p := by
  refine (mem_collect (table_root has) within_root).trans ?_
  simp only [List.append_nil]

theorem VmInv.nodup_tablesOf (h : VmInv pool (avail v.pages) v.mem active) (has : as ∈ active) :
    (tablesOf v.mem active as).Nodup := by
  have hnodup := nodup_collect h.apart (List.nodup_range (n := 2 ^ 9)) (table_root has) within_root
  exact hnodup

/-- `unprotect` frees these. -/
theorem unprotect_eq (h : VmInv pool (avail v.pages) v.mem active) (has : as ∈ active) :
    unprotect A as v =
      { v with pages := (tablesOf v.mem active as).foldl (fun s p => A.pgfree p s) v.pages } := by
  rcases h.root has with ⟨p, hp, hcell⟩
  have hal := h.aligned hp
  have hmod : (p + 5) % 2 ^ 12 = 5 := by omega
  have hbits : (p + 5) &&& PTE_P ≠ 0 ∧ (p + 5) &&& PTE_U ≠ 0 := by
    rw [Words.and_low (k := 12) (f := PTE_P) (by decide), Words.and_low (k := 12) (f := PTE_U) (by decide), hmod]
    decide
  have hrange : List.range (1 <<< (mmu.pgtables 0).bits) = [0] := rfl
  unfold unprotect
  rw [show mmu.ptlevels + 1 = 4 + 1 from rfl, teardown, hrange]
  simp only [List.foldl_cons, List.foldl_nil, Nat.mul_zero, Nat.add_zero]
  rw [hcell, if_pos hbits, if_neg (by decide), teardown_eq active (d := 0) rfl, tablesOf, hcell]

/-- What the allocator has after pages are freed, each once. -/
theorem avail_free (hA : A.Lawful pool avail) {l : List ℕ} (hl : l.Nodup)
    (hpool : ∀ p ∈ l, p ∈ pool.pages) (hav : ∀ p ∈ l, p ∉ avail s) :
    p ∈ avail (l.foldl (fun s p => A.pgfree p s) s) ↔ p ∈ avail s ∨ p ∈ l := by
  induction l generalizing s with
  | nil => simp
  | cons q l ih =>
      rcases List.nodup_cons.1 hl with ⟨hq, hl⟩
      have hfree := hA.free s q (hpool q List.mem_cons_self) (hav q List.mem_cons_self)
      rw [List.foldl_cons, ih hl fun t ht => hpool t (List.mem_cons_of_mem _ ht)]
      · rw [hfree, Set.mem_insert_iff, List.mem_cons]
        exact ⟨fun h => h.elim (fun h => h.elim (fun h => Or.inr (Or.inl h)) Or.inl)
          (fun h => Or.inr (Or.inr h)), fun h => h.elim (fun h => Or.inl (Or.inr h))
          (fun h => h.elim (fun h => Or.inl (Or.inl h)) Or.inr)⟩
      · intro t ht hin
        rw [hfree] at hin
        rcases Set.mem_insert_iff.1 hin with rfl | hin
        · exact hq ht
        · exact hav t (List.mem_cons_of_mem _ ht) hin

/-- What `unprotect` does. -/
theorem unprotect_spec (hA : A.Lawful pool avail) (h : VmInv pool (avail v.pages) v.mem active)
    (has : as ∈ active) :
    (∀ p, p ∈ avail (unprotect A as v).pages ↔ p ∈ avail v.pages ∨
      ∃ path, (vmTables v.mem active).table as path = some p) ∧
      VmInv pool (avail (unprotect A as v).pages) v.mem (active.erase as) ∧
      ∀ as' path p, (vmTables v.mem (active.erase as)).table as' path = some p ↔
        as' ≠ as ∧ (vmTables v.mem active).table as' path = some p := by
  have hav : ∀ p, p ∈ avail (unprotect A as v).pages ↔ p ∈ avail v.pages ∨
      ∃ path, (vmTables v.mem active).table as path = some p := by
    intro p
    rw [unprotect_eq h has, avail_free hA (h.nodup_tablesOf has), mem_tablesOf has]
    · intro t ht
      rcases (mem_tablesOf has).1 ht with ⟨path, ht⟩
      exact (h.page t ⟨as, path, ht⟩).1
    · intro t ht
      rcases (mem_tablesOf has).1 ht with ⟨path, ht⟩
      exact (h.page t ⟨as, path, ht⟩).2.1
  have hs : SameEntries v.mem v.mem active (active.erase as) :=
    ⟨Finset.erase_subset as active, fun _ _ => rfl, fun _ _ _ _ _ _ _ _ => rfl⟩
  have htable : ∀ as' path p, (vmTables v.mem (active.erase as)).table as' path = some p ↔
      as' ≠ as ∧ (vmTables v.mem active).table as' path = some p := by
    intro as' path p
    rw [hs.kept.table_iff, Finset.mem_erase]
    exact ⟨fun ht => ⟨ht.1.1, ht.2⟩, fun ht => ⟨⟨ht.1, table_active ht.2⟩, ht.2⟩⟩
  refine ⟨hav, h.mono hs h.kernel (fun p hp hin => ?_) (fun p hp hin => ?_), htable⟩
  · have hfix : p ∈ fixedPages active := hp.imp_right (Or.imp_right fun ⟨as', has', he⟩ =>
      ⟨as', Finset.mem_of_mem_erase has', he⟩)
    rcases (hav p).1 hin with hin | ⟨path, ht⟩
    · exact h.fixed p hfix hin
    · exact (h.page p ⟨as, path, ht⟩).2.2 hfix
  · rcases hp with ⟨as', path', hp⟩
    rcases (htable as' path' p).1 hp with ⟨hne, hp⟩
    rcases (hav p).1 hin with hin | ⟨path, ht⟩
    · exact (h.page p ⟨as', path', hp⟩).2.1 hin
    · exact hne (h.apart hp ht).1

end Teardown

end OsLab.Vme
