import OsLab.Am.VmeTables
import Mathlib.Data.Set.Card

/-! # Walking the tables (`ptwalk` and `map` of `vme.c`)

`ptwalk` goes down the tables along the bits of an address and makes those that are missing. It
changes no mapping, and takes pages from the allocator only for tables. `map`
then stores one entry, and its second `ptwalk` finds all the tables there.
-/

namespace OsLab.Vme

open Tables

/-- `avail` are the pages that the allocator can hand out in a state, of those in `pool`. -/
structure PageAllocator.Lawful {σ : Type*} (A : PageAllocator σ) (pool : PagePool)
    (avail : σ → Set ℕ) : Prop where
  alloc : ∀ s, (A.pgalloc mmu.pgsize s).1 ≠ 0 → (A.pgalloc mmu.pgsize s).1 ∈ avail s ∧
    avail (A.pgalloc mmu.pgsize s).2 = avail s \ {(A.pgalloc mmu.pgsize s).1}
  free : ∀ s, ∀ p ∈ pool.pages, p ∉ avail s → avail (A.pgfree p s) = insert p (avail s)
  pool : ∀ s, ∀ p ∈ avail s, p ∈ pool.pages

/-- The path of an address down to depth `d`. -/
def vaPath (va : ℕ) : ℕ → List ℕ
  | 0 => []
  | d + 1 => indexof va (d + 1) :: vaPath va d

@[simp] theorem vaPath_length (va d : ℕ) : (vaPath va d).length = d := by
  induction d with
  | zero => rfl
  | succ d ih => rw [vaPath, List.length_cons, ih]

/-- The path of an address goes on from depth to depth. -/
theorem vaPath_append (va d k : ℕ) : ∃ ext, vaPath va (d + k) = ext ++ vaPath va d := by
  induction k with
  | zero => exact ⟨[], rfl⟩
  | succ k ih =>
      rcases ih with ⟨ext, hext⟩
      exact ⟨indexof va (d + k + 1) :: ext, by rw [← Nat.add_assoc, vaPath, hext]; rfl⟩

theorem indexof_lt (va : ℕ) {i : ℕ} (hi : i < 4) : indexof va (i + 1) < 2 ^ 9 := by
  rw [indexof_eq va (Nat.le_add_left 1 i) (by omega)]
  exact Nat.mod_lt _ (by decide)

/-- A walk changes no mapping, and writes only in tables and in pages that it takes for tables. -/
structure Grown (pool : PagePool) (active : Finset ℕ) (avail : Set ℕ) (mem : ℕ → ℕ)
    (avail' : Set ℕ) (mem' : ℕ → ℕ) : Prop where
  inv : VmInv pool avail' mem' active
  table : ∀ as path p, (vmTables mem active).table as path = some p →
    (vmTables mem' active).table as path = some p
  leaf : ∀ as path i, path.length = 3 → i < 2 ^ 9 →
    vmLeaf mem' active as path i = vmLeaf mem active as path i
  pages : ∀ p, p ∈ avail' ∨ InTables mem' active p ↔ p ∈ avail ∨ InTables mem active p
  other : ∀ a, pageOf a ∉ avail → ¬ InTables mem active (pageOf a) → mem' a = mem a

section Grown

variable {pool : PagePool} {active : Finset ℕ} {avail avail' avail'' : Set ℕ}
  {mem mem' mem'' : ℕ → ℕ}

theorem VmInv.grown_self (h : VmInv pool avail mem active) : Grown pool active avail mem avail mem :=
  ⟨h, fun _ _ _ hp => hp, fun _ _ _ _ _ => rfl, fun _ => Iff.rfl, fun _ _ _ => rfl⟩

theorem Grown.trans (h : Grown pool active avail mem avail' mem')
    (h' : Grown pool active avail' mem' avail'' mem'') :
    Grown pool active avail mem avail'' mem'' := by
  refine ⟨h'.inv, fun as path p hp => h'.table as path p (h.table as path p hp),
    fun as path i hlen hi => (h'.leaf as path i hlen hi).trans (h.leaf as path i hlen hi),
    fun p => (h'.pages p).trans (h.pages p), fun a hav htab => ?_⟩
  have hnot := mt (h.pages (pageOf a)).1 (not_or.2 ⟨hav, htab⟩)
  rw [h'.other a (fun hin => hnot (Or.inl hin)) (fun hin => hnot (Or.inr hin)),
    h.other a hav htab]

/-- One more table. -/
theorem VmInv.grown_link {as p q i : ℕ} {path : List ℕ} (h : VmInv pool avail mem active)
    (hm : Missing pool avail mem active as path p i q) (hl : Linked mem mem' p i q) :
    Grown pool active avail mem (avail \ {q}) mem' ∧
      (vmTables mem' active).table as (i :: path) = some q := by
  have hadd := h.added hm hl
  refine ⟨⟨h.link hm hl, fun as' path' t ht => hadd.table_iff.2 (Or.inl ht),
    fun as' path' j hlen hj => h.link_leaf hm hl hlen hj, fun t => ?_, fun a hav htab => ?_⟩,
    hadd.table_iff.2 (Or.inr ⟨rfl, rfl, rfl⟩)⟩
  · constructor
    · rintro (⟨hav, -⟩ | ⟨as', path', ht⟩)
      · exact Or.inl hav
      · rcases hadd.table_iff.1 ht with hold | ⟨-, -, rfl⟩
        · exact Or.inr ⟨as', path', hold⟩
        · exact Or.inl hm.free
    · rintro (hav | ⟨as', path', ht⟩)
      · by_cases htq : t = q
        · exact Or.inr ⟨as, i :: path, hadd.table_iff.2 (Or.inr ⟨rfl, rfl, htq⟩)⟩
        · exact Or.inl ⟨hav, htq⟩
      · exact Or.inr ⟨as', path', hadd.table_iff.2 (Or.inl ht)⟩
  · refine hl.other a ?_ ?_
    · rintro rfl
      exact hav hm.free
    · rintro rfl
      rw [pageOf_entry (h.aligned hm.table) hm.index] at htab
      exact htab ⟨as, path, hm.table⟩

end Grown

section Walk

variable {σ : Type*} {A : PageAllocator σ} {pool : PagePool} {avail : σ → Set ℕ} {v v' : Vm σ}
  {active : Finset ℕ} {as va p q i e : ℕ}

/-- A page for a table. -/
theorem pgallocz_linked (hA : A.Lawful pool avail) (h : VmInv pool (avail v.pages) v.mem active)
    {path : List ℕ} (hp : (vmTables v.mem active).table as path = some p) (hi : i < 2 ^ 9)
    (hr : pgallocz A v = some (q, v')) :
    q ∈ avail v.pages ∧ avail v'.pages = avail v.pages \ {q} ∧ Linked v.mem
      (Function.update v'.mem (p + 8 * i) (q ||| PTE_P ||| (PTE_W ||| PTE_U))) p i q := by
  unfold pgallocz at hr
  simp only at hr
  split at hr
  · cases hr
  rename_i hnull
  obtain ⟨rfl, rfl⟩ := Prod.mk.inj (Option.some.inj hr)
  rcases hA.alloc v.pages hnull with ⟨hq, hav⟩
  have hpage := pool.aligned _ (hA.pool _ _ hq)
  have hne : ∀ j < 2 ^ 9, (A.pgalloc mmu.pgsize v.pages).1 + 8 * j ≠ p + 8 * i := by
    intro j hj he
    have hpq := congrArg pageOf he
    rw [pageOf_entry hpage hj, pageOf_entry (h.aligned hp) hi] at hpq
    rw [hpq] at hq
    exact (h.page p ⟨as, path, hp⟩).2.1 hq
  refine ⟨hq, hav, fun j hj => ?_, ?_, fun a ha hae => ?_⟩
  · rw [Function.update_of_ne (hne j hj)]
    exact zeroWords_entry hj
  · rw [Function.update_self, Nat.lor_assoc]
    exact Words.or_low hpage (by decide)
  · rw [Function.update_of_ne hae]
    exact zeroWords_other hpage (by decide) ha

/-- With the tables all there, a walk finds the entry and changes nothing. -/
theorem ptwalkLoop_found {flags d n p₃ : ℕ} (hd : d + n = 3)
    (hp : (vmTables v.mem active).table as (vaPath va d) = some p)
    (hp₃ : (vmTables v.mem active).table as (vaPath va 3) = some p₃) :
    ptwalkLoop A va flags n (d + 1) p v = some (p₃ + 8 * indexof va 4, v) := by
  induction n generalizing d p with
  | zero =>
      obtain rfl : d = 3 := hd
      obtain rfl := Option.some.inj (hp.symm.trans hp₃)
      rfl
  | succ n ih =>
      rcases vaPath_append va (d + 1) n with ⟨ext, hext⟩
      rw [show d + 1 + n = 3 by omega] at hext
      have habove := hp₃
      rw [hext] at habove
      rcases table_of_append habove with ⟨t, ht⟩
      rcases table_cons_eq_some.1 ht with ⟨p', hp', hnext⟩
      obtain rfl := Option.some.inj (hp'.symm.trans hp)
      rcases next_eq_some.1 hnext with ⟨⟨-, -, hpres, -⟩, rfl⟩
      rw [ptwalkLoop, if_neg hpres]
      exact ih (by omega) ht

/-- What a walk from depth `d` on does. -/
theorem ptwalkLoop_spec (hA : A.Lawful pool avail) (huser : indexof va 1 = 32) {d n : ℕ}
    (hd : d + n = 3) (h : VmInv pool (avail v.pages) v.mem active)
    (hp : (vmTables v.mem active).table as (vaPath va d) = some p)
    (hr : ptwalkLoop A va (PTE_W ||| PTE_U) n (d + 1) p v = some (e, v')) :
    Grown pool active (avail v.pages) v.mem (avail v'.pages) v'.mem ∧ ∃ p₃,
      (vmTables v'.mem active).table as (vaPath va 3) = some p₃ ∧ e = p₃ + 8 * indexof va 4 := by
  induction n generalizing d p v with
  | zero =>
      obtain rfl : d = 3 := hd
      obtain ⟨rfl, rfl⟩ := Prod.mk.inj (Option.some.inj hr)
      exact ⟨h.grown_self, p, hp, rfl⟩
  | succ n ih =>
      have hi : indexof va (d + 1) < 2 ^ 9 := indexof_lt va (by omega)
      have hroot : vaPath va d = [] → indexof va (d + 1) = 32 := by
        intro hnil
        have hlen := congrArg List.length hnil
        rw [vaPath_length] at hlen
        obtain rfl : d = 0 := hlen
        exact huser
      rw [ptwalkLoop] at hr
      rcases h.entry as _ p hp (by rw [vaPath_length]; omega) _ hi with hzero | ⟨hnil, hkern⟩ |
        ⟨q, hq, he⟩
      · -- a table is missing
        rw [if_pos (by rw [hzero, Nat.zero_and])] at hr
        rcases Option.bind_eq_some_iff.1 hr with ⟨⟨q, w⟩, hw, hr⟩
        rcases pgallocz_linked hA h hp hi hw with ⟨hq, hav, hl⟩
        have hm : Missing pool (avail v.pages) v.mem active as (vaPath va d) p (indexof va (d + 1))
            q := ⟨hp, by rw [vaPath_length]; omega, hi, hroot, hzero, hq, hA.pool _ q hq⟩
        rcases h.grown_link hm hl with ⟨hgrown, htable⟩
        rw [← hav] at hgrown
        rcases ih (by omega) hgrown.inv htable hr with ⟨hgrown', hres⟩
        exact ⟨hgrown.trans hgrown', hres⟩
      · rw [hroot hnil] at hkern
        cases hkern
      · have hqpage := (h.page q ⟨as, _, hq⟩).1
        rw [he, if_neg (flags_table (pool.aligned q hqpage)).1,
          baseof_page (pool.aligned q hqpage) (by decide) (pool.word q hqpage)] at hr
        exact ih (d := d + 1) (by omega) h hq hr

/-- At level 0 there is the address space itself. -/
theorem ptwalk_root (A : PageAllocator σ) (va : ℕ) (h : VmInv pool (avail v.pages) v.mem active) (has : as ∈ active)
    (flags : ℕ) : ∃ p, (vmTables v.mem active).table as [] = some p ∧
      ptwalk A as va flags v = ptwalkLoop A va flags 3 1 p v := by
  rcases h.root has with ⟨p, hp, hcell⟩
  have hal := h.aligned hp
  have hmod : (p + 5) % 2 ^ 12 = 5 := by omega
  have hpres : (p + 5) &&& PTE_P ≠ 0 := by
    rw [Words.and_low (k := 12) (by decide), hmod]
    decide
  refine ⟨p, hp, ?_⟩
  unfold ptwalk
  rw [show mmu.ptlevels = 3 + 1 from rfl, ptwalkLoop, indexof_root, Nat.mul_zero, Nat.add_zero,
    hcell, if_neg hpres, baseof_page hal (by decide) (pool.word p (h.page p ⟨as, [], hp⟩).1)]

/-- What `ptwalk` does. -/
theorem ptwalk_spec (hA : A.Lawful pool avail) (h : VmInv pool (avail v.pages) v.mem active)
    (has : as ∈ active) (huser : indexof va 1 = 32)
    (hr : ptwalk A as va (PTE_W ||| PTE_U) v = some (e, v')) :
    Grown pool active (avail v.pages) v.mem (avail v'.pages) v'.mem ∧ ∃ p₃,
      (vmTables v'.mem active).table as (vaPath va 3) = some p₃ ∧ e = p₃ + 8 * indexof va 4 := by
  rcases ptwalk_root A va h has (PTE_W ||| PTE_U) with ⟨p, hp, hloop⟩
  rw [hloop] at hr
  exact ptwalkLoop_spec hA huser (d := 0) rfl h hp hr

/-- Three pages are enough for a walk. -/
theorem ptwalkLoop_isSome (hA : A.Lawful pool avail)
    (hnull : ∀ s, (A.pgalloc mmu.pgsize s).1 = 0 → avail s = ∅) {flags d n : ℕ}
    (hn : (n : ℕ∞) ≤ (avail v.pages).encard) : (ptwalkLoop A va flags n d p v).isSome := by
  induction n generalizing d p v with
  | zero => rfl
  | succ n ih =>
      rw [ptwalkLoop]
      split
      · have hne : (A.pgalloc mmu.pgsize v.pages).1 ≠ 0 := by
          intro hz
          rw [hnull _ hz, Set.encard_empty, nonpos_iff_eq_zero] at hn
          exact absurd hn (by simp)
        rcases hA.alloc _ hne with ⟨hq, hav⟩
        rw [pgallocz]
        simp only
        rw [if_neg hne, Option.bind_some]
        apply ih
        simp only
        rw [hav]
        have hcard := Set.encard_sdiff_singleton_add_one hq
        rw [← hcard, Nat.cast_succ] at hn
        exact (ENat.add_le_add_iff_right (by simp)).1 hn
      · exact ih (le_trans (by exact_mod_cast Nat.le_succ n) hn)

end Walk

/-! ## Mappings -/

/-- What each address space maps its pages to, and if they can be written. -/
abbrev Mappings := ℕ → ℕ → Option (ℕ × Bool)

/-- Addresses of the user's area. -/
def InUser (va : ℕ) : Prop := uvmArea.start ≤ va ∧ va < uvmArea.stop

/-- A page table entry. -/
def encode : Option (ℕ × Bool) → ℕ
  | none => 0
  | some (pa, w) => pa + (if w then 7 else 5)

/-- What a call of `map` asks for. -/
def mapEntry (pa prot : ℕ) : Option (ℕ × Bool) :=
  if prot = MMAP_NONE then none else some (pa, decide (prot &&& MMAP_WRITE ≠ 0))

/-- `map`, for the user of the address space. -/
def mapTo (as va pa prot : ℕ) (m : Mappings) : Mappings :=
  Function.update m as (Function.update (m as) (va / 2 ^ 12) (mapEntry pa prot))

/-- The page table entries of the address spaces are those of `m`. -/
structure Maps (mem : ℕ → ℕ) (active : Finset ℕ) (m : Mappings) : Prop where
  leaf : ∀ as ∈ active, ∀ va, InUser va →
    vmLeaf mem active as (vaPath va 3) (indexof va 4) = encode (m as (va / 2 ^ 12))
  page : ∀ as vpn pa w, m as vpn = some (pa, w) → 2 ^ 12 ∣ pa ∧ pa < 2 ^ 64

section Bits

variable {va va' : ℕ}

theorem InUser.index (h : InUser va) : indexof va 1 = 32 := by
  rcases h with ⟨hlo, hhi⟩
  rw [indexof_eq va (by decide) (by decide)]
  unfold uvmArea at hlo hhi
  simp only at hlo hhi
  omega

/-- The indices of an address determine its page. -/
theorem vaPath_inj (h : InUser va) (h' : InUser va') :
    (vaPath va' 3 = vaPath va 3 ∧ indexof va' 4 = indexof va 4) ↔
      va' / 2 ^ 12 = va / 2 ^ 12 := by
  rcases h with ⟨hlo, hhi⟩
  rcases h' with ⟨hlo', hhi'⟩
  unfold uvmArea at hlo hhi hlo' hhi'
  simp only at hlo hhi hlo' hhi'
  simp only [vaPath, List.cons.injEq, and_true, Nat.reduceAdd]
  rw [indexof_eq va (i := 1) (by decide) (by decide), indexof_eq va (i := 2) (by decide) (by decide),
    indexof_eq va (i := 3) (by decide) (by decide), indexof_eq va (i := 4) (by decide) (by decide),
    indexof_eq va' (i := 1) (by decide) (by decide),
    indexof_eq va' (i := 2) (by decide) (by decide),
    indexof_eq va' (i := 3) (by decide) (by decide), indexof_eq va' (i := 4) (by decide) (by decide)]
  simp only [Nat.reduceMul, Nat.reduceSub, Nat.reducePow]
  omega

theorem encode_present {x : Option (ℕ × Bool)} (hx : ∀ pa w, x = some (pa, w) → 2 ^ 12 ∣ pa) :
    encode x &&& PTE_P = 0 ↔ x = none := by
  rcases x with - | ⟨pa, w⟩
  · exact iff_of_true (Nat.zero_and _) rfl
  · have hpa := hx pa w rfl
    refine iff_of_false (fun hz => ?_) (by rintro ⟨⟩)
    cases w
    · have hmod : (pa + 5) % 2 ^ 12 = 5 := by omega
      change (pa + 5) &&& PTE_P = 0 at hz
      rw [Words.and_low (k := 12) (by decide), hmod] at hz
      exact absurd hz (by decide)
    · exact (flags_table hpa).1 hz

/-- The entry that `map` stores. -/
theorem pte_eq {pa prot : ℕ} (hpa : 2 ^ 12 ∣ pa) :
    pa ||| PTE_P ||| PTE_U ||| (if prot &&& MMAP_WRITE ≠ 0 then PTE_W else 0) =
      encode (some (pa, decide (prot &&& MMAP_WRITE ≠ 0))) := by
  rw [Nat.lor_assoc, Nat.lor_assoc]
  by_cases hw : prot &&& MMAP_WRITE ≠ 0
  · rw [if_pos hw, decide_eq_true hw]
    exact Words.or_low hpa (by decide)
  · rw [if_neg hw, decide_eq_false hw]
    exact Words.or_low hpa (by decide)

theorem mapEntry_page {pa prot : ℕ} (hpa : 2 ^ 12 ∣ pa) (hlt : pa < 2 ^ 64) {pa' : ℕ} {w : Bool}
    (h : mapEntry pa prot = some (pa', w)) : 2 ^ 12 ∣ pa' ∧ pa' < 2 ^ 64 := by
  unfold mapEntry at h
  split at h
  · cases h
  · obtain ⟨rfl, -⟩ := Prod.mk.inj (Option.some.inj h)
    exact ⟨hpa, hlt⟩

end Bits

section Map

variable {σ : Type*} {A : PageAllocator σ} {pool : PagePool} {avail : σ → Set ℕ} {v v₁ v' : Vm σ}
  {active : Finset ℕ} {as va pa prot e : ℕ} {m : Mappings}

/-- The second walk of `map` finds what the first one has left. -/
theorem ptwalk_again (hA : A.Lawful pool avail) (h : VmInv pool (avail v.pages) v.mem active)
    (has : as ∈ active) (hva : InUser va) (hr : ptwalk A as va (PTE_W ||| PTE_U) v = some (e, v₁))
    (w : ℕ) : ptwalk A as va (PTE_W ||| PTE_U) { v₁ with mem := Function.update v₁.mem e w } =
      some (e, { v₁ with mem := Function.update v₁.mem e w }) := by
  rcases ptwalk_spec hA h has hva.index hr with ⟨hgrown, p, hp, rfl⟩
  have hi : indexof va 4 < 2 ^ 9 := indexof_lt va (by decide)
  rcases hgrown.inv.write_leaf hp (vaPath_length va 3) hi w with ⟨hinv, htable, -⟩
  rcases ptwalk_root (v := { v₁ with mem := Function.update v₁.mem (p + 8 * indexof va 4) w }) A va
    hinv has (PTE_W ||| PTE_U) with ⟨q, hq, hloop⟩
  rw [hloop]
  exact ptwalkLoop_found (d := 0) rfl hq (by rw [htable]; exact hp)

/-- Past its checks of the arguments. -/
theorem map_of_args (hva : InUser va) (hval : 2 ^ 12 ∣ va) (hpa : 2 ^ 12 ∣ pa) :
    map A as va pa prot v = (ptwalk A as va (PTE_W ||| PTE_U) v).bind fun r =>
      if prot = MMAP_NONE then
        if r.2.mem r.1 &&& PTE_P = 0 then none
        else
          (ptwalk A as va (PTE_W ||| PTE_U) { r.2 with mem := Function.update r.2.mem r.1 0 }).map
            Prod.snd
      else if r.2.mem r.1 &&& PTE_P ≠ 0 then none
      else
        (ptwalk A as va (PTE_W ||| PTE_U)
          { r.2 with
            mem := Function.update r.2.mem r.1
              (encode (some (pa, decide (prot &&& MMAP_WRITE ≠ 0)))) }).map Prod.snd := by
  have hrange : ¬ ¬ (uvmArea.start ≤ va ∧ va < uvmArea.stop) := not_not.2 hva
  have hmod : ¬ (va % mmu.pgsize ≠ 0 ∨ pa % mmu.pgsize ≠ 0) := by
    rw [not_or, not_not, not_not]
    exact ⟨Nat.mod_eq_zero_of_dvd hval, Nat.mod_eq_zero_of_dvd hpa⟩
  rw [map, if_neg hrange, if_neg hmod, ← pte_eq hpa]

theorem map_bad_args (h : ¬ (InUser va ∧ 2 ^ 12 ∣ va ∧ 2 ^ 12 ∣ pa)) :
    map A as va pa prot v = none := by
  unfold map
  split
  · rfl
  rename_i hva
  split
  · rfl
  rename_i hmod
  rw [not_or, not_not, not_not] at hmod
  exact absurd ⟨not_not.1 hva, Nat.dvd_of_mod_eq_zero hmod.1, Nat.dvd_of_mod_eq_zero hmod.2⟩ h

/-- `map` stores an entry, if there is one just when it is to go. -/
theorem map_walked (hA : A.Lawful pool avail) (h : VmInv pool (avail v.pages) v.mem active)
    (has : as ∈ active) (hva : InUser va) (hval : 2 ^ 12 ∣ va) (hpa : 2 ^ 12 ∣ pa)
    (hr : ptwalk A as va (PTE_W ||| PTE_U) v = some (e, v₁)) :
    map A as va pa prot v = if v₁.mem e &&& PTE_P = 0 ↔ prot ≠ MMAP_NONE then
      some { v₁ with mem := Function.update v₁.mem e (encode (mapEntry pa prot)) } else none := by
  rw [map_of_args hva hval hpa, hr, Option.bind_some, mapEntry]
  by_cases hprot : prot = MMAP_NONE
  · rw [if_pos hprot, if_pos hprot]
    by_cases hpres : v₁.mem e &&& PTE_P = 0
    · rw [if_pos hpres, if_neg (fun hiff => hiff.1 hpres hprot)]
    · rw [if_neg hpres, if_pos (iff_of_false hpres (not_not.2 hprot)),
        ptwalk_again hA h has hva hr]
      rfl
  · rw [if_neg hprot, if_neg hprot]
    by_cases hpres : v₁.mem e &&& PTE_P = 0
    · rw [if_neg (not_not.2 hpres), if_pos (iff_of_true hpres hprot), ptwalk_again hA h has hva hr]
      rfl
    · rw [if_pos hpres, if_neg (fun hiff => hpres (hiff.2 hprot))]

/-- What is in the entry before. -/
theorem Maps.walked (hm : Maps v.mem active m) (hA : A.Lawful pool avail)
    (h : VmInv pool (avail v.pages) v.mem active) (has : as ∈ active) (hva : InUser va)
    (hr : ptwalk A as va (PTE_W ||| PTE_U) v = some (e, v₁)) :
    v₁.mem e &&& PTE_P = 0 ↔ m as (va / 2 ^ 12) = none := by
  rcases ptwalk_spec hA h has hva.index hr with ⟨hgrown, p, hp, rfl⟩
  have hleaf := hgrown.leaf as (vaPath va 3) (indexof va 4) (vaPath_length va 3)
    (indexof_lt va (by decide))
  rw [vmLeaf_of_table hp, hm.leaf as has va hva] at hleaf
  rw [hleaf]
  exact encode_present fun pa w he => (hm.page _ _ pa w he).1

/-- What `map` does when it returns. -/
theorem map_spec (hA : A.Lawful pool avail) (h : VmInv pool (avail v.pages) v.mem active)
    (hm : Maps v.mem active m) (has : as ∈ active) (hlt : pa < 2 ^ 64)
    (hr : map A as va pa prot v = some v') :
    VmInv pool (avail v'.pages) v'.mem active ∧ Maps v'.mem active (mapTo as va pa prot m) ∧
      (∀ p, p ∈ avail v'.pages ∨ InTables v'.mem active p ↔
        p ∈ avail v.pages ∨ InTables v.mem active p) ∧
      ∀ a, pageOf a ∉ avail v.pages → ¬ InTables v.mem active (pageOf a) →
        v'.mem a = v.mem a := by
  have hargs : InUser va ∧ 2 ^ 12 ∣ va ∧ 2 ^ 12 ∣ pa := by
    by_contra hbad
    rw [map_bad_args hbad] at hr
    cases hr
  rcases hargs with ⟨hva, hval, hpa⟩
  cases hwalk : ptwalk A as va (PTE_W ||| PTE_U) v with
  | none =>
      rw [map_of_args hva hval hpa, hwalk] at hr
      cases hr
  | some r =>
      rcases r with ⟨e, v₁⟩
      rw [map_walked hA h has hva hval hpa hwalk] at hr
      split at hr
      · obtain rfl := Option.some.inj hr
        rcases ptwalk_spec hA h has hva.index hwalk with ⟨hgrown, p, hp, rfl⟩
        have hi : indexof va 4 < 2 ^ 9 := indexof_lt va (by decide)
        rcases hgrown.inv.write_leaf hp (vaPath_length va 3) hi (encode (mapEntry pa prot)) with
          ⟨hinv, htable, hleaf⟩
        have hin : ∀ t, InTables (Function.update v₁.mem (p + 8 * indexof va 4)
            (encode (mapEntry pa prot))) active t ↔ InTables v₁.mem active t := by
          intro t
          unfold InTables
          simp only [htable]
        refine ⟨hinv, ⟨fun as' has' va' hva' => ?_, fun as' vpn pa' w he => ?_⟩, fun t => ?_,
          fun a hav htab => ?_⟩
        · have hidx : indexof va' 4 < 2 ^ 9 := indexof_lt va' (by decide)
          simp only
          rw [hleaf as' _ _ (vaPath_length va' 3) hidx,
            hgrown.leaf as' _ _ (vaPath_length va' 3) hidx, hm.leaf as' has' va' hva', mapTo]
          by_cases hsame : as' = as
          · subst hsame
            rw [Function.update_self]
            by_cases hpage : va' / 2 ^ 12 = va / 2 ^ 12
            · rw [if_pos ⟨rfl, (vaPath_inj hva hva').2 hpage⟩, hpage, Function.update_self]
            · rw [if_neg (fun hc => hpage ((vaPath_inj hva hva').1 hc.2)),
                Function.update_of_ne hpage]
          · rw [if_neg (fun hc => hsame hc.1), Function.update_of_ne hsame]
        · unfold mapTo at he
          by_cases hsame : as' = as
          · subst hsame
            rw [Function.update_self] at he
            by_cases hpage : vpn = va / 2 ^ 12
            · rw [hpage, Function.update_self] at he
              exact mapEntry_page hpa hlt he
            · rw [Function.update_of_ne hpage] at he
              exact hm.page as' vpn pa' w he
          · rw [Function.update_of_ne hsame] at he
            exact hm.page as' vpn pa' w he
        · exact (or_congr_right (hin t)).trans (hgrown.pages t)
        · have hnot := mt (hgrown.pages (pageOf a)).1 (not_or.2 ⟨hav, htab⟩)
          simp only
          rw [Function.update_of_ne, hgrown.other a hav htab]
          rintro rfl
          rw [pageOf_entry (hgrown.inv.aligned hp) hi] at hnot
          exact hnot (Or.inr ⟨as, _, hp⟩)
      · cases hr

/-- With three pages left, `map` panics for a wrong call only. -/
theorem map_eq_none (hA : A.Lawful pool avail)
    (hnull : ∀ s, (A.pgalloc mmu.pgsize s).1 = 0 → avail s = ∅)
    (h : VmInv pool (avail v.pages) v.mem active) (hm : Maps v.mem active m) (has : as ∈ active)
    (hpages : 3 ≤ (avail v.pages).encard) : map A as va pa prot v = none ↔
      ¬ (InUser va ∧ 2 ^ 12 ∣ va ∧ 2 ^ 12 ∣ pa ∧
        (prot = MMAP_NONE ↔ m as (va / 2 ^ 12) ≠ none)) := by
  by_cases hargs : InUser va ∧ 2 ^ 12 ∣ va ∧ 2 ^ 12 ∣ pa
  swap
  · exact iff_of_true (map_bad_args hargs) fun hc => hargs ⟨hc.1, hc.2.1, hc.2.2.1⟩
  rcases hargs with ⟨hva, hval, hpa⟩
  have hsome : (ptwalk A as va (PTE_W ||| PTE_U) v).isSome := by
    rcases ptwalk_root A va h has (PTE_W ||| PTE_U) with ⟨p, -, hloop⟩
    rw [hloop]
    exact ptwalkLoop_isSome hA hnull hpages
  rcases Option.isSome_iff_exists.1 hsome with ⟨⟨e, v₁⟩, hwalk⟩
  have hentry := hm.walked hA h has hva hwalk
  rw [map_walked hA h has hva hval hpa hwalk]
  simp only [hentry]
  by_cases hc : m as (va / 2 ^ 12) = none ↔ prot ≠ MMAP_NONE
  · rw [if_pos hc]
    refine iff_of_false (by rintro ⟨⟩) (not_not.2 ⟨hva, hval, hpa, ?_⟩)
    rw [Ne, hc, not_not]
  · rw [if_neg hc]
    refine iff_of_true rfl fun hall => hc ?_
    rw [← not_iff_not, Ne, not_not]
    exact hall.2.2.2.symm

end Map

end OsLab.Vme
