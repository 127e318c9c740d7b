import OsLab.Am.VmeSpaces

/-! # Translation, and runs of calls (`vme.c`)

`translate` is the page walk of the processor in 64-bit mode, on the tables as they are in
memory. In a run, address spaces come and go, pages are mapped and unmapped in them, and the
rest of the kernel does what it likes, except with the tables.
-/

namespace OsLab.Vme

open Tables Trace

/-! ## The processor -/

instance (va : ℕ) : Decidable (InUser va) := inferInstanceAs (Decidable (_ ∧ _))

section Translate

variable {pool : PagePool} {avail : Set ℕ} {mem : ℕ → ℕ} {active : Finset ℕ} {as va p q n : ℕ}
  {m : Mappings} {user write : Bool}

end Translate

/-! ## Runs -/

/-- The memory with its tables, and the address spaces in use. -/
structure VmSys (σ : Type*) where
  vm : Vm σ
  active : Finset ℕ

/-- The calls, and everything else that goes on. -/
inductive VmOp
  | protect (as : ℕ)
  | unprotect (as : ℕ)
  | map (as va pa prot : ℕ)
  | other

section Run

variable {σ : Type*} (A : PageAllocator σ) (avail : σ → Set ℕ)

/-- After `start64.S` and `vme_init`. -/
structure VmStart (s : VmSys σ) : Prop where
  active : s.active = ∅
  mem : ∃ mem₀ : ℕ → ℕ, mem₀ PML4_ADDR = 0 ∧ s.vm.mem = startTables mem₀
  pml4 : PML4_ADDR ∉ avail s.vm.pages
  pdpt : PDPT_ADDR ∉ avail s.vm.pages

/-- One call that returns. The rest of the kernel neither writes nor frees tables and the
`AddrSpace`s in use. -/
inductive VmStep : VmSys σ → VmOp → VmSys σ → Prop
  | protect {v v' : Vm σ} {active : Finset ℕ} {as : ℕ} : 8 ∣ as →
      NewCell (avail v.pages) v.mem active as → protect A as v = some v' →
      VmStep ⟨v, active⟩ (.protect as) ⟨v', insert as active⟩
  | unprotect {v : Vm σ} {active : Finset ℕ} {as : ℕ} : as ∈ active →
      VmStep ⟨v, active⟩ (.unprotect as) ⟨unprotect A as v, active.erase as⟩
  | map {v v' : Vm σ} {active : Finset ℕ} {as va pa prot : ℕ} : as ∈ active → pa < 2 ^ 64 →
      map A as va pa prot v = some v' →
      VmStep ⟨v, active⟩ (.map as va pa prot) ⟨v', active⟩
  | other {v v' : Vm σ} {active : Finset ℕ} : (∀ as ∈ active, v'.mem as = v.mem as) →
      (∀ a, pageOf a = PML4_ADDR ∨ pageOf a = PDPT_ADDR ∨ InTables v.mem active (pageOf a) →
        v'.mem a = v.mem a) →
      (∀ p, p ∈ fixedPages active ∨ InTables v.mem active p → p ∉ avail v'.pages) →
      VmStep ⟨v, active⟩ .other ⟨v', active⟩

/-- What is asked for by a call. -/
def VmOp.apply : VmOp → Mappings → Mappings
  | .protect as, m => Function.update m as fun _ => none
  | .unprotect as, m => Function.update m as fun _ => none
  | .map as va pa prot, m => mapTo as va pa prot m
  | .other, m => m

/-- What is asked for by the calls of a run. -/
def asked : List (VmSys σ × VmOp) → Mappings
  | [] => fun _ _ => none
  | (_, op) :: h => op.apply (asked h)

/-- Every table belongs to one address space, and goes back once, when this is given up. -/
structure TablePages (s₀ s : VmSys σ) : Prop where
  taken : ∀ p, InTables s.vm.mem s.active p → p ∉ avail s.vm.pages
  owner : ∀ as path as' path' p, (vmTables s.vm.mem s.active).table as path = some p →
    (vmTables s.vm.mem s.active).table as' path' = some p → as = as' ∧ path = path'
  freed : ∀ as ∈ s.active, (tablesOf s.vm.mem s.active as).Nodup ∧
    (∀ p, p ∈ tablesOf s.vm.mem s.active as ↔
      ∃ path, (vmTables s.vm.mem s.active).table as path = some p) ∧
    unprotect A as s.vm = { s.vm with
      pages := (tablesOf s.vm.mem s.active as).foldl (fun s p => A.pgfree p s) s.vm.pages }
  balance : ∀ p, p ∈ avail s₀.vm.pages ↔
    p ∈ avail s.vm.pages ∨ InTables s.vm.mem s.active p

end Run

section Steps

variable {σ : Type*} {A : PageAllocator σ} {pool : PagePool} {avail : σ → Set ℕ} {v v' : Vm σ}
  {active : Finset ℕ} {as : ℕ} {m : Mappings} {s s' : VmSys σ} {op : VmOp}

theorem VmStart.inv (h : VmStart avail s) :
    VmInv pool (avail s.vm.pages) s.vm.mem s.active ∧
      Maps s.vm.mem s.active (fun _ _ => none) := by
  rcases h with ⟨hact, ⟨mem₀, hmem₀, hmem⟩, hpml4, hpdpt⟩
  rcases s with ⟨v, active⟩
  simp only at hact hmem hpml4 hpdpt
  subst hact
  have hnone : ∀ as path p, (vmTables v.mem ∅).table as path ≠ some p := fun as path p hp =>
    Finset.notMem_empty _ (table_active hp)
  refine ⟨⟨fun as path as' path' p hp => absurd hp (hnone _ _ _), ?_, ?_, ?_, ?_, ?_, ?_, ?_⟩,
    ⟨?_, ?_⟩⟩
  · rintro p (rfl | rfl | ⟨as, has, -⟩)
    · exact hpml4
    · exact hpdpt
    · exact absurd has (Finset.notMem_empty as)
  · rw [hmem]
    exact startTables_kernel hmem₀
  · exact fun as has => absurd has (Finset.notMem_empty as)
  · rintro p ⟨as, path, hp⟩
    exact absurd hp (hnone _ _ _)
  · exact fun as p hp => absurd hp (hnone _ _ _)
  · exact fun as i p hp => absurd hp (hnone _ _ _)
  · exact fun as path p hp => absurd hp (hnone _ _ _)
  · exact fun as has => absurd has (Finset.notMem_empty as)
  · rintro as vpn pa w ⟨⟩

/-- A new address space maps nothing, and the others what they did. -/
theorem Maps.protect (hm : Maps v.mem active m) (hA : A.Lawful pool avail)
    (h : VmInv pool (avail v.pages) v.mem active)
    (hnew : NewCell (avail v.pages) v.mem active as) (hr : protect A as v = some v') :
    VmInv pool (avail v'.pages) v'.mem (insert as active) ∧
      Maps v'.mem (insert as active) (Function.update m as fun _ => none) ∧
      ∀ p, p ∈ avail v'.pages ∨ InTables v'.mem (insert as active) p ↔
        p ∈ avail v.pages ∨ InTables v.mem active p := by
  rcases protect_rooted hA h hnew hr with ⟨q, hq, hav, hrooted⟩
  have hpool := hA.pool _ q hq
  have hadd := h.root_added hnew hq hpool hrooted
  refine ⟨hav ▸ h.rooted hnew hq hpool hrooted, ⟨fun as' has' va hva => ?_,
    fun as' vpn pa w he => ?_⟩, fun p => ?_⟩
  · have hidx : indexof va 4 < 2 ^ 9 := indexof_lt va (by decide)
    rcases Finset.mem_insert.1 has' with rfl | has'
    · rw [Function.update_self]
      apply vmLeaf_of_none
      rw [Option.eq_none_iff_forall_ne_some]
      intro t ht
      rcases hadd.table_iff.1 ht with hold | ⟨-, ⟨⟩, -⟩
      exact hnew.new (table_active hold)
    · have hne : as' ≠ as := fun he => hnew.new (he ▸ has')
      rw [Function.update_of_ne hne, ← hm.leaf as' has' va hva]
      cases ht : (vmTables v.mem active).table as' (vaPath va 3) with
      | some t =>
          rw [vmLeaf_of_table ht, vmLeaf_of_table (hadd.table_iff.2 (Or.inl ht))]
          exact h.rooted_entry hnew hq hrooted ht hidx
      | none =>
          rw [vmLeaf_of_none ht]
          apply vmLeaf_of_none
          rw [Option.eq_none_iff_forall_ne_some]
          intro t ht'
          rcases hadd.table_iff.1 ht' with hold | ⟨-, ⟨⟩, -⟩
          rw [ht] at hold
          cases hold
  · by_cases hsame : as' = as
    · rw [hsame, Function.update_self] at he
      cases he
    · rw [Function.update_of_ne hsame] at he
      exact hm.page as' vpn pa w he
  · rw [hav]
    constructor
    · rintro (⟨hin, -⟩ | ⟨as', path, ht⟩)
      · exact Or.inl hin
      · rcases hadd.table_iff.1 ht with hold | ⟨-, -, rfl⟩
        · exact Or.inr ⟨as', path, hold⟩
        · exact Or.inl hq
    · rintro (hin | ⟨as', path, ht⟩)
      · by_cases hpq : p = q
        · exact Or.inr ⟨as, [], hadd.table_iff.2 (Or.inr ⟨rfl, rfl, hpq⟩)⟩
        · exact Or.inl ⟨hin, hpq⟩
      · exact Or.inr ⟨as', path, hadd.table_iff.2 (Or.inl ht)⟩

/-- The address spaces that stay map what they did. -/
theorem Maps.unprotect (hm : Maps v.mem active m) (hA : A.Lawful pool avail)
    (h : VmInv pool (avail v.pages) v.mem active) (has : as ∈ active) :
    Maps v.mem (active.erase as) (Function.update m as fun _ => none) ∧
      ∀ p, p ∈ avail (unprotect A as v).pages ∨ InTables v.mem (active.erase as) p ↔
        p ∈ avail v.pages ∨ InTables v.mem active p := by
  rcases unprotect_spec hA h has with ⟨hav, -, htable⟩
  refine ⟨⟨fun as' has' va hva => ?_, fun as' vpn pa w he => ?_⟩, fun p => ?_⟩
  · rcases Finset.mem_erase.1 has' with ⟨hne, has'⟩
    rw [Function.update_of_ne hne, ← hm.leaf as' has' va hva, vmLeaf, vmLeaf]
    congr 1
    ext t
    rw [htable, and_iff_right hne]
  · by_cases hsame : as' = as
    · rw [hsame, Function.update_self] at he
      cases he
    · rw [Function.update_of_ne hsame] at he
      exact hm.page as' vpn pa w he
  · rw [hav]
    constructor
    · rintro ((hin | ⟨path, ht⟩) | ⟨as', path, ht⟩)
      · exact Or.inl hin
      · exact Or.inr ⟨as, path, ht⟩
      · exact Or.inr ⟨as', path, ((htable as' path p).1 ht).2⟩
    · rintro (hin | ⟨as', path, ht⟩)
      · exact Or.inl (Or.inl hin)
      · by_cases hsame : as' = as
        · exact Or.inl (Or.inr ⟨path, hsame ▸ ht⟩)
        · exact Or.inr ⟨as', path, (htable as' path p).2 ⟨hsame, ht⟩⟩

/-- What one step does to the invariant, to the mappings and to the pages. -/
theorem VmStep.spec (hA : A.Lawful pool avail) (hstep : VmStep A avail s op s')
    (h : VmInv pool (avail s.vm.pages) s.vm.mem s.active) (hm : Maps s.vm.mem s.active m) :
    (VmInv pool (avail s'.vm.pages) s'.vm.mem s'.active ∧
      Maps s'.vm.mem s'.active (op.apply m)) ∧
      (op ≠ .other → ∀ p, p ∈ avail s'.vm.pages ∨ InTables s'.vm.mem s'.active p ↔
        p ∈ avail s.vm.pages ∨ InTables s.vm.mem s.active p) := by
  cases hstep with
  | protect _ hnew hr =>
      rcases hm.protect hA h hnew hr with ⟨hinv, hmaps, hpages⟩
      exact ⟨⟨hinv, hmaps⟩, fun _ => hpages⟩
  | unprotect has =>
      rcases hm.unprotect hA h has with ⟨hmaps, hpages⟩
      exact ⟨⟨(unprotect_spec hA h has).2.1, hmaps⟩, fun _ => hpages⟩
  | map has hlt hr =>
      rcases map_spec hA h hm has hlt hr with ⟨hinv, hmaps, hpages, -⟩
      exact ⟨⟨hinv, hmaps⟩, fun _ => hpages⟩
  | @other v v' active hcell hmem hav =>
      have hentry : ∀ as path p, (vmTables v.mem active).table as path = some p → ∀ i < 2 ^ 9,
          v'.mem (p + 8 * i) = v.mem (p + 8 * i) := by
        intro as path p hp i hi
        refine hmem _ (Or.inr (Or.inr ?_))
        rw [pageOf_entry (h.aligned hp) hi]
        exact ⟨as, path, hp⟩
      have hs : SameEntries v.mem v'.mem active active :=
        ⟨Finset.Subset.refl active, hcell, fun as _ path p hp _ => hentry as path p hp⟩
      refine ⟨⟨h.mono hs (h.kernel.congr fun a ha => hmem a (ha.imp_right Or.inl))
        (fun p hp => hav p (Or.inl hp)) (fun p hp => hav p (Or.inr (hs.inTables hp))),
        ⟨fun as has va hva => ?_, hm.page⟩⟩, fun hne => absurd rfl hne⟩
      have hidx : indexof va 4 < 2 ^ 9 := indexof_lt va (by decide)
      have htable : (vmTables v'.mem active).table as (vaPath va 3) =
          (vmTables v.mem active).table as (vaPath va 3) := by
        ext t
        rw [hs.kept.table_iff, and_iff_right has]
      refine Eq.trans ?_ (hm.leaf as has va hva)
      cases ht : (vmTables v.mem active).table as (vaPath va 3) with
      | none => rw [vmLeaf_of_none ht, vmLeaf_of_none (htable.trans ht)]
      | some t =>
          rw [vmLeaf_of_table ht, vmLeaf_of_table (htable.trans ht)]
          exact hentry as _ t ht _ hidx

/-- The invariant of every run. -/
theorem vmInv_of_run {init : VmSys σ → Prop} (hA : A.Lawful pool avail)
    (hinit : ∀ s, init s → VmStart avail s) {h : List (VmSys σ × VmOp)}
    (hr : Run init (VmStep A avail) h s) : VmInv pool (avail s.vm.pages) s.vm.mem s.active ∧
      Maps s.vm.mem s.active (asked h) := by
  induction hr with
  | start hs => exact (hinit _ hs).inv
  | snoc _ hstep ih => exact (hstep.spec hA ih.1 ih.2).1

end Steps

/-! ## An allocator with eight pages -/

/-- The free pages in a list. -/
def listAllocator : PageAllocator (List (Fin 8)) where
  pgalloc
    | _, [] => (0, [])
    | _, k :: s => (0x100000 + 2 ^ 12 * k.val, s.filter (· ≠ k))
  pgfree p s := Fin.ofNat 8 ((p - 0x100000) / 2 ^ 12) :: s

def listAvail (s : List (Fin 8)) : Set ℕ := {p | ∃ k ∈ s, p = 0x100000 + 2 ^ 12 * k.val}

def listPool : PagePool where
  pages := {p | ∃ k : Fin 8, p = 0x100000 + 2 ^ 12 * k.val}
  aligned := by
    rintro p ⟨k, rfl⟩
    omega
  word := by
    rintro p ⟨k, rfl⟩
    omega

theorem listAllocator_lawful : listAllocator.Lawful listPool listAvail := by
  refine ⟨fun s hs => ?_, ?_, fun s p ⟨k, _, he⟩ => ⟨k, he⟩⟩
  · cases s with
    | nil => exact absurd rfl hs
    | cons k s =>
        refine ⟨⟨k, List.mem_cons_self, rfl⟩, ?_⟩
        ext p
        constructor
        · rintro ⟨j, hj, rfl⟩
          rcases List.mem_filter.1 hj with ⟨hj, hne⟩
          refine ⟨⟨j, List.mem_cons_of_mem k hj, rfl⟩, fun he => of_decide_eq_true hne ?_⟩
          have hval : 0x100000 + 2 ^ 12 * j.val = 0x100000 + 2 ^ 12 * k.val := he
          exact Fin.ext (by omega)
        · rintro ⟨⟨j, hj, rfl⟩, hne⟩
          have hjk : j ≠ k := fun he => hne (by rw [he]; rfl)
          exact ⟨j, List.mem_filter.2 ⟨(List.mem_cons.1 hj).resolve_left hjk, decide_eq_true hjk⟩,
            rfl⟩
  · rintro s p ⟨k, rfl⟩ -
    have hk : Fin.ofNat 8 ((0x100000 + 2 ^ 12 * k.val - 0x100000) / 2 ^ 12) = k := by
      apply Fin.ext
      simp only [Fin.ofNat]
      omega
    ext p
    constructor
    · rintro ⟨j, hj, rfl⟩
      rcases List.mem_cons.1 hj with rfl | hj
      · exact Set.mem_insert_iff.2 (Or.inl (by rw [hk]))
      · exact Set.mem_insert_of_mem _ ⟨j, hj, rfl⟩
    · rintro (rfl | ⟨j, hj, rfl⟩)
      · exact ⟨k, List.mem_cons.2 (Or.inl hk.symm), rfl⟩
      · exact ⟨j, List.mem_cons_of_mem _ hj, rfl⟩

theorem listAllocator_null (s : List (Fin 8)) (h : (listAllocator.pgalloc mmu.pgsize s).1 = 0) :
    listAvail s = ∅ := by
  cases s with
  | nil =>
      ext p
      simp [listAvail]
  | cons k s =>
      have hval : 0x100000 + 2 ^ 12 * k.val = 0 := h
      omega

/-- One address space with one page. -/
theorem exists_run_one_page : ∃ s₀ h s, VmStart listAvail s₀ ∧
    Run (· = s₀) (VmStep listAllocator listAvail) h s ∧ AllSteps (fun _ op => op ≠ .other) h ∧
      0x8000 ∈ s.active ∧ asked h 0x8000 0x100000000 = some (0x5000, true) := by
  have hlow : ∀ s, ∀ p < 0x100000, p ∉ listAvail s := by
    rintro s p hp ⟨k, -, rfl⟩
    omega
  have hstart : VmStart listAvail
      ⟨⟨startTables fun _ => 0, List.finRange 8⟩, (∅ : Finset ℕ)⟩ :=
    ⟨rfl, ⟨fun _ => 0, rfl, rfl⟩, hlow _ _ (by decide), hlow _ _ (by decide)⟩
  have hinv : VmInv listPool _ _ _ ∧ _ := hstart.inv
  have hnew : NewCell (listAvail (List.finRange 8)) (startTables fun _ => 0) ∅ 0x8000 := by
    refine ⟨Finset.notMem_empty _, hlow _ _ (by decide), ?_, by decide, by decide⟩
    rintro ⟨as, path, ht⟩
    exact Finset.notMem_empty as (table_active ht)
  obtain ⟨v₁, hv₁, hpages⟩ : ∃ v₁, protect listAllocator 0x8000
      ⟨startTables fun _ => 0, List.finRange 8⟩ = some v₁ ∧
        v₁.pages = (List.finRange 8).filter (· ≠ 0) := ⟨_, rfl, rfl⟩
  rcases hinv.2.protect listAllocator_lawful hinv.1 hnew hv₁ with ⟨hinv₁, hmaps₁, -⟩
  have hthree : 3 ≤ (listAvail v₁.pages).encard := by
    have hsub : (({0x101000, 0x102000, 0x103000} : Finset ℕ) : Set ℕ) ⊆ listAvail v₁.pages := by
      intro p hp
      simp only [Finset.coe_insert, Finset.coe_singleton, Set.mem_insert_iff,
        Set.mem_singleton_iff] at hp
      rw [hpages]
      rcases hp with rfl | rfl | rfl
      · exact ⟨1, by decide, rfl⟩
      · exact ⟨2, by decide, rfl⟩
      · exact ⟨3, by decide, rfl⟩
    have hcard := Set.encard_le_encard hsub
    rw [Set.encard_coe_eq_coe_finsetCard] at hcard
    exact hcard
  have hmap : map listAllocator 0x8000 0x100000000000 0x5000 2 v₁ ≠ none := by
    rw [Ne, map_eq_none listAllocator_lawful listAllocator_null hinv₁ hmaps₁
      (Finset.mem_insert_self _ _) hthree, not_not]
    refine ⟨by decide, by decide, by decide, iff_of_false (by decide) ?_⟩
    rw [Function.update_self]
    exact not_not.2 rfl
  obtain ⟨v₂, hv₂⟩ := Option.ne_none_iff_exists'.1 hmap
  have hr : Run (fun s => s = ⟨⟨startTables fun _ => 0, List.finRange 8⟩, (∅ : Finset ℕ)⟩)
      (VmStep listAllocator listAvail) _ _ :=
    Run.snoc (Run.snoc (Run.start rfl) (VmStep.protect (by decide) hnew hv₁))
      (VmStep.map (Finset.mem_insert_self 0x8000 ∅) (by decide) hv₂)
  refine ⟨_, _, _, hstart, hr, ?_, Finset.mem_insert_self _ _, rfl⟩
  exact allSteps_cons.2 ⟨by rintro ⟨⟩, allSteps_cons.2 ⟨by rintro ⟨⟩, allSteps_nil⟩⟩

/-! ## Soundness -/

section Sound

variable {σ : Type*} {A : PageAllocator σ} {pool : PagePool} {avail : σ → Set ℕ} {s : VmSys σ}

/-- In every run whose steps are calls the allocator is short of the tables in use, and of no other
page. -/
theorem tablePages_of_run (hA : A.Lawful pool avail) {s₀ : VmSys σ} (hs₀ : VmStart avail s₀)
    {h : List (VmSys σ × VmOp)} (hr : Run (· = s₀) (VmStep A avail) h s)
    (hcalls : AllSteps (fun _ op => op ≠ .other) h) : TablePages A avail s₀ s := by
  have hinit : ∀ s, s = s₀ → VmStart avail s := by
    rintro _ rfl
    exact hs₀
  rcases vmInv_of_run hA hinit hr with ⟨hinv, -⟩
  refine ⟨fun p hp => (hinv.page p hp).2.1, fun as path as' path' p hp hp' => hinv.apart hp hp',
    fun as has => ⟨hinv.nodup_tablesOf has, fun p => mem_tablesOf has, unprotect_eq hinv has⟩,
    fun p => ?_⟩
  induction hr with
  | @start s hs =>
      subst hs
      refine ⟨Or.inl, fun hp => hp.elim id ?_⟩
      rintro ⟨as, path, ht⟩
      have has := table_active ht
      rw [hs₀.active] at has
      exact absurd has (Finset.notMem_empty as)
  | snoc hr hstep ih =>
      rcases allSteps_cons.1 hcalls with ⟨hne, hcalls⟩
      rcases vmInv_of_run hA hinit hr with ⟨hinv', hmaps'⟩
      exact (ih hcalls hinv').trans ((hstep.spec hA hinv' hmaps').2 hne p).symm

end Sound

theorem tablePages_one_page : ∃ s₀ h s, VmStart listAvail s₀ ∧
    Run (· = s₀) (VmStep listAllocator listAvail) h s ∧ AllSteps (fun _ op => op ≠ .other) h ∧
      0x8000 ∈ s.active ∧ TablePages listAllocator listAvail s₀ s := by
  obtain ⟨s₀, h, s, hstart, hr, hcalls, has, -⟩ := exists_run_one_page
  exact ⟨s₀, h, s, hstart, hr, hcalls, has,
    tablePages_of_run listAllocator_lawful hstart hr hcalls⟩

end OsLab.Vme
