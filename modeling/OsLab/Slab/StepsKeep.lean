import OsLab.Slab.StepsInv

/-! # Every step keeps what holds between the steps

One lemma for each kind of step: those that go on or change a lock (`goto`,
`acquire`, `release`, `attempt`), those that change the blocks of a slab whose
lock is held (`take`, `put`), those that make a slab (`page`, `format`,
`linkNew`, `pushNew`) and those of `recover_slab` (`unlink`, `giveBack`). Only
the last needs more than the invariant: nobody else may be about to use the slab
that is passed to `page_free`.
-/

namespace OsLab

open Buddy PtrList Trace

variable {n : ℕ} {s s' : SlabConc} {L L' : ℕ → ℕ → List ℕ} {c d cpu k S N b : ℕ} {p q : SlabPc}

/-! ## Rules -/

theorem SlabGood.congr (h : SlabGood s cpu k S) {v : Bool} {a : Option ℕ}
    (hslab : s'.slab S = { s.slab S with locked := v, append := a })
    (hlive : (s'.live.filter fun b => slabOf b = S).Perm (s.live.filter fun b => slabOf b = S))
    (hpages : s'.pages S = s.pages S) (hret : s'.returned S = s.returned S) :
    SlabGood s' cpu k S := by
  constructor
  · exact h.class_lt
  · exact h.dvd
  · rw [hslab]
    exact h.cpuId
  · rw [hslab]
    exact h.type
  · rw [hslab]
    exact h.blockNum
  · rw [hslab]
    exact h.freeBlockNum
  · rw [hslab]
    exact (hlive.append_left _).trans h.blocks
  · exact hpages.trans h.pages
  · exact hret.trans h.returned

/-- The slab a CPU is about to use without its lock is on its list or just unlinked. -/
theorem StepsInv.cursor_of_pc (h : StepsInv n s L) (hcur : (s.pc d).cursor = some S) :
    ∃ cpu k, Cursor s L cpu k S := by
  have hpc := h.pcs d
  cases hp : s.pc d <;> rw [hp] at hcur hpc <;>
    simp only [SlabPc.cursor, Option.some.injEq, reduceCtorEq] at hcur <;> subst hcur
  case advance => exact ⟨d, _, hpc.1⟩
  case walk =>
    rcases hpc with ⟨cpu, k, -, -, hc⟩
    exact ⟨cpu, k, hc⟩
  case tryPrev =>
    rcases hpc with ⟨cpu, k, -, -, hc, -⟩
    exact ⟨cpu, k, hc⟩

theorem StepsInv.pages_of_cursor (h : StepsInv n s L) (hcur : Cursor s L cpu k S) :
    s.pages S = .slab := by
  rcases hcur with hS | ⟨d, P, hpc, -⟩
  · exact (h.slabs cpu k S hS).pages
  · exact h.owned d S (by simp [hpc, SlabPc.owns, SlabPc.holds])

/-- A cursor stays one when a CPU that is not about to return a slab goes on. -/
theorem Cursor.mono (hcur : Cursor s L cpu k S) (hpc : ∀ d, d ≠ c → s'.pc d = s.pc d)
    (hback : (s.pc c).returns = none) (hL : ∀ S, S ∈ L cpu k → S ∈ L' cpu k) :
    Cursor s' L' cpu k S := by
  rcases hcur with hS | ⟨d, P, hd, hP⟩
  · exact Or.inl (hL S hS)
  · refine Or.inr ⟨d, P, ?_, hL P hP⟩
    refine (hpc d ?_).trans hd
    rintro rfl
    rw [hd] at hback
    cases hback

/-- A step that leaves the lists as they are: what is left to show. -/
theorem StepsInv.keep (h : StepsInv n s L) (hn : n ≤ c → s'.pc c = .idle)
    (hpc : ∀ d, d ≠ c → s'.pc d = s.pc d) (hhead : s'.head = s.head)
    (hback : (s.pc c).returns = none)
    (hslab : ∀ d, d ≠ c → ∀ S ∈ (s.pc d).owns, s'.slab S = s.slab S)
    (happ : ∀ cpu k S, Cursor s L cpu k S → (s'.slab S).append = (s.slab S).append)
    (hpages : ∀ S, s.pages S = .slab → s'.pages S = .slab)
    (hret : ∀ d, d ≠ c → ∀ S ∈ (s.pc d).owns, s'.returned S = s.returned S)
    (hkeep : ∀ d, d ≠ c → ∀ b, (s.pc d).block = some b → b ∈ s.live → b ∈ s'.live)
    (hlive : ∀ b ∈ s'.live, ∃ cpu k, slabOf b ∈ L cpu k)
    (hslabs : ∀ cpu k, ∀ S ∈ L cpu k, SlabGood s' cpu k S)
    (howned : ∀ S ∈ (s'.pc c).owns, s'.pages S = .slab ∧ ∀ d, d ≠ c → S ∉ (s.pc d).owns)
    (hlocked : ∀ S ∈ (s'.pc c).holds, (s'.slab S).locked = true)
    (hblock : ∀ b, (s'.pc c).block = some b → ∀ d, d ≠ c → (s.pc d).block ≠ some b)
    (hpcs : PcInv s' L c (s'.pc c)) : StepsInv n s' L := by
  have hu : Undisturbed c s L s' L := by
    refine ⟨hpc, fun d _ k => by rw [hhead], fun _ _ _ _ _ _ hS => hS, fun _ _ _ _ hS => hS,
      fun d _ S _ cpu k hcur => hcur.mono hpc hback fun _ hS => hS, ?_, hslab, ?_, hret, hkeep,
      fun b hb => Or.inr (hlive b hb)⟩
    · intro d _ S hcur N _ hN
      rcases h.cursor_of_pc hcur with ⟨cpu, k, hcur⟩
      exact (happ cpu k S hcur).trans hN
    · intro d hd S hS
      rw [h.owned d S hS]
      exact hpages S (h.owned d S hS)
  refine h.next hu hn ?_ hslabs hlive howned hlocked hblock hpcs
  intro cpu k
  rw [hhead]
  exact (h.chain cpu k).congr fun S hS => happ cpu k S (Or.inl hS)

/-! ## Going on, and locks -/

/-- Changing locks that the others do not hold, and going on to `p`. -/
theorem StepsInv.relock (h : StepsInv n s L) (hn : c < n) (hback : (s.pc c).returns = none)
    (slab : ℕ → SlabRec) (hsame : ∀ S, ∃ v, slab S = { s.slab S with locked := v })
    (hothers : ∀ d, d ≠ c → ∀ S ∈ (s.pc d).owns, slab S = s.slab S) (hmaking : p.making = none)
    (hholds : ∀ S ∈ p.holds, (∀ d, d ≠ c → S ∉ (s.pc d).owns) ∧ s.pages S = .slab ∧
      (slab S).locked = true)
    (hblock : ∀ b, p.block = some b → ∀ d, d ≠ c → (s.pc d).block ≠ some b)
    (hpcs : PcInv s L c p) :
    StepsInv n ({ s with slab := slab }.goto c p) L := by
  have happ : ∀ S, (slab S).append = (s.slab S).append := fun S => by
    rcases hsame S with ⟨v, hv⟩
    rw [hv]
  have hfull : ∀ S, (slab S).freeBlockNum = (slab S).blockNum ↔ s.Full S := fun S => by
    rcases hsame S with ⟨v, hv⟩
    rw [hv]
    exact Iff.rfl
  have hpc : ∀ d, d ≠ c → ({ s with slab := slab }.goto c p).pc d = s.pc d := fun d hd =>
    SlabConc.goto_pc_of_ne _ _ _ hd
  have hcur : ∀ {cpu k S}, Cursor s L cpu k S →
      Cursor ({ s with slab := slab }.goto c p) L cpu k S := fun hcur =>
    hcur.mono hpc hback fun _ hS => hS
  refine h.keep (fun hc => absurd hn (by omega)) hpc rfl hback hothers (fun _ _ S _ => happ S)
    (fun _ hS => hS) (fun _ _ _ _ => rfl) (fun _ _ _ _ hb => hb) h.live ?_ ?_ ?_ ?_ ?_
  · intro cpu k S hS
    rcases hsame S with ⟨v, hv⟩
    exact (h.slabs cpu k S hS).congr (show slab S = { s.slab S with
      locked := v, append := (s.slab S).append } from hv) .rfl rfl rfl
  · rw [SlabConc.goto_pc_self, SlabPc.owns, hmaking]
    intro S hS
    simp only [Option.toList_none, List.append_nil] at hS
    exact ⟨(hholds S hS).2.1, (hholds S hS).1⟩
  · rw [SlabConc.goto_pc_self]
    exact fun S hS => (hholds S hS).2.2
  · rw [SlabConc.goto_pc_self]
    exact hblock
  · rw [SlabConc.goto_pc_self]
    cases p <;> simp only [SlabPc.making, reduceCtorEq] at hmaking <;>
      simp only [PcInv, SlabConc.Full, SlabConc.goto_slab, SlabConc.goto_head, SlabConc.goto_live,
        SlabConc.goto_returned, happ, hfull] at hpcs ⊢ <;> first
      | exact hpcs
      | skip
    case advance => exact ⟨hcur hpcs.1, hpcs.2⟩
    case walk =>
      rcases hpcs with ⟨cpu, k, hS, hf, hprev⟩
      exact ⟨cpu, k, hS, hf, hcur hprev⟩
    case tryPrev =>
      rcases hpcs with ⟨cpu, k, hS, hf, hprev, hl⟩
      exact ⟨cpu, k, hS, hf, hcur hprev, hl⟩

/-- What a CPU holds or makes is a page in use by the slabs, and its alone. -/
theorem StepsInv.alone (h : StepsInv n s L) (hS : S ∈ (s.pc c).owns) :
    (∀ d, d ≠ c → S ∉ (s.pc d).owns) ∧ s.pages S = .slab :=
  ⟨fun d hd hS' => hd (h.apart d c S hS' hS), h.owned c S hS⟩

theorem StepsInv.goto (h : StepsInv n s L) (hn : c < n) (hp : s.pc c = q) (hback : q.returns = none)
    (hholds : ∀ S ∈ p.holds, S ∈ q.holds) (hmaking : p.making = none)
    (hblock : ∀ b, p.block = some b → ∀ d, d ≠ c → (s.pc d).block ≠ some b)
    (hpcs : PcInv s L c p) : StepsInv n (s.goto c p) L := by
  subst hp
  refine h.relock hn hback s.slab (fun S => ⟨(s.slab S).locked, rfl⟩) (fun _ _ _ _ => rfl) hmaking
    (fun S hS => ?_) hblock hpcs
  have hown := h.alone (SlabPc.owns_of_holds (hholds S hS))
  exact ⟨hown.1, hown.2, h.locked c S (hholds S hS)⟩

/-- The lock of a slab on a list, when it is free. -/
theorem StepsInv.lock (h : StepsInv n s L) (hn : c < n) (hp : s.pc c = q) (hback : q.returns = none)
    (hS : S ∈ L cpu k) (hfree : (s.slab S).locked = false)
    (hholds : ∀ T ∈ p.holds, T = S ∨ T ∈ q.holds) (hmaking : p.making = none)
    (hblock : ∀ b ∈ p.block, b ∈ q.block) (hpcs : PcInv s L c p) :
    StepsInv n ((s.setLocked S true).goto c p) L := by
  subst hp
  have hnot := h.not_owned_of_unlocked hS hfree
  refine h.relock hn hback (Function.update s.slab S { s.slab S with locked := true }) ?_ ?_
    hmaking ?_ ?_ hpcs
  · intro T
    by_cases hT : T = S
    · subst hT
      exact ⟨true, Function.update_self _ _ _⟩
    · exact ⟨(s.slab T).locked, Function.update_of_ne hT _ _⟩
  · intro d _ T hd
    exact Function.update_of_ne (fun he : T = S => hnot d (he ▸ hd)) _ _
  · intro T hT
    rcases hholds T hT with rfl | hT
    · refine ⟨fun d _ => hnot d, (h.slabs cpu k T hS).pages, ?_⟩
      rw [Function.update_self]
    · have hown := h.alone (SlabPc.owns_of_holds hT)
      have hne : T ≠ S := fun he => hnot c (he ▸ SlabPc.owns_of_holds hT)
      refine ⟨hown.1, hown.2, ?_⟩
      rw [Function.update_of_ne hne]
      exact h.locked c T hT
  · exact fun b hb d hd hb' => hd (h.blocks d c b hb' (hblock b hb))

theorem StepsInv.acquire (h : StepsInv n s L) (hn : c < n) (hp : s.pc c = q)
    (hback : q.returns = none) (hS : S ∈ L cpu k) (hholds : ∀ T ∈ p.holds, T = S ∨ T ∈ q.holds)
    (hmaking : p.making = none) (hblock : ∀ b ∈ p.block, b ∈ q.block) (hpcs : PcInv s L c p) :
    StepsInv n (s.acquire c S p) L := by
  unfold SlabConc.acquire
  split
  · exact h
  · rename_i hfree
    exact h.lock hn hp hback hS (Bool.eq_false_iff.2 hfree) hholds hmaking hblock hpcs

theorem StepsInv.release (h : StepsInv n s L) (hn : c < n) (hp : s.pc c = q)
    (hback : q.returns = none) (hS : S ∈ q.holds) (hholds : ∀ T ∈ p.holds, T ≠ S ∧ T ∈ q.holds)
    (hmaking : p.making = none) (hblock : p.block = none) (hpcs : PcInv s L c p) :
    StepsInv n (s.release c S p) L := by
  subst hp
  refine h.relock hn hback (Function.update s.slab S { s.slab S with locked := false }) ?_ ?_
    hmaking ?_ (by simp [hblock]) hpcs
  · intro T
    by_cases hT : T = S
    · subst hT
      exact ⟨false, Function.update_self _ _ _⟩
    · exact ⟨(s.slab T).locked, Function.update_of_ne hT _ _⟩
  · intro d hd T hT
    refine Function.update_of_ne (fun he => ?_) _ _
    exact (h.alone (SlabPc.owns_of_holds hS)).1 d hd (he ▸ hT)
  · intro T hT
    rcases hholds T hT with ⟨hne, hT⟩
    have hown := h.alone (SlabPc.owns_of_holds hT)
    refine ⟨hown.1, hown.2, ?_⟩
    rw [Function.update_of_ne hne]
    exact h.locked c T hT

/-! ## The blocks of a slab -/

/-- Work on the blocks of a slab `S` whose lock is held. -/
theorem StepsInv.account (h : StepsInv n s L) (hn : c < n) (hback : (s.pc c).returns = none)
    (hS : S ∈ L cpu k) (hhold : S ∈ (s.pc c).holds) {free live : List ℕ}
    (hperm : (free ++ live.filter fun b => slabOf b = S).Perm (slabBlocks S (k + S_8B)))
    (hrest : ∀ T, T ≠ S →
      (live.filter fun b => slabOf b = T).Perm (s.live.filter fun b => slabOf b = T))
    (hkeep : ∀ d, d ≠ c → ∀ b, (s.pc d).block = some b → b ∈ s.live → b ∈ live)
    (hmaking : p.making = none) (hholds : p.holds = [S])
    (hblock : ∀ b, p.block = some b → ∀ d, d ≠ c → (s.pc d).block ≠ some b)
    (hpcs : PcInv (({ s with live := live }.setSlab S
      { s.slab S with freeList := free, freeBlockNum := free.length }).goto c p) L c p) :
    StepsInv n (({ s with live := live }.setSlab S
      { s.slab S with freeList := free, freeBlockNum := free.length }).goto c p) L := by
  have hown := h.alone (SlabPc.owns_of_holds hhold)
  have hslab : ∀ T, T ≠ S → (Function.update s.slab S
      { s.slab S with freeList := free, freeBlockNum := free.length }) T = s.slab T := fun T hT =>
    Function.update_of_ne hT _ _
  refine h.keep (fun hc => absurd hn (by omega)) (fun d hd => SlabConc.goto_pc_of_ne _ _ _ hd) rfl
    hback ?_ ?_ (fun _ hS => hS) (fun _ _ _ _ => rfl) hkeep ?_ ?_ ?_ ?_ ?_ ?_
  · exact fun d hd T hT => hslab T fun he => hown.1 d hd (he ▸ hT)
  · intro _ _ T _
    by_cases hT : T = S
    · subst hT
      rw [SlabConc.goto_slab, SlabConc.setSlab_slab_self]
    · exact congrArg SlabRec.append (hslab T hT)
  · intro b hb
    by_cases hT : slabOf b = S
    · exact ⟨cpu, k, hT ▸ hS⟩
    · have hmem : b ∈ live.filter fun a => slabOf a = slabOf b :=
        List.mem_filter.2 ⟨hb, decide_eq_true rfl⟩
      exact h.live b (List.mem_of_mem_filter ((hrest _ hT).subset hmem))
  · intro cpu' k' T hT
    by_cases he : T = S
    · subst he
      rcases h.unique hS hT with ⟨rfl, rfl⟩
      have hg := h.slabs cpu k T hS
      refine ⟨hg.class_lt, hg.dvd, ?_, ?_, ?_, ?_, ?_, hg.pages, hg.returned⟩ <;>
        rw [SlabConc.goto_slab, SlabConc.setSlab_slab_self]
      · exact hg.cpuId
      · exact hg.type
      · exact hg.blockNum
      · exact hperm
    · exact (h.slabs cpu' k' T hT).congr (hslab T he) (hrest T he) rfl rfl
  · rw [SlabConc.goto_pc_self, SlabPc.owns, hholds, hmaking]
    intro T hT
    have he : T = S := by simpa using hT
    subst he
    exact ⟨hown.2, hown.1⟩
  · rw [SlabConc.goto_pc_self, hholds]
    intro T hT
    rw [List.mem_singleton.1 hT, SlabConc.goto_slab, SlabConc.setSlab_slab_self]
    exact h.locked c S hhold
  · rw [SlabConc.goto_pc_self]
    exact hblock
  · rw [SlabConc.goto_pc_self]
    exact hpcs

/-- A block on its way is live. -/
theorem StepsInv.live_of_block (h : StepsInv n s L) (hb : (s.pc d).block = some b) :
    b ∈ s.live := by
  have hpc := h.pcs d
  cases hp : s.pc d <;> rw [hp] at hb hpc <;>
    simp only [SlabPc.block, Option.some.injEq, reduceCtorEq] at hb <;> subst hb
  case unlockTaken => exact hpc.2
  case lockOwn | putBlock => exact hpc

theorem SlabGood.slabOf_eq (h : SlabGood s cpu k S) (hb : b ∈ (s.slab S).freeList) :
    slabOf b = S := by
  have hmem := h.blocks.subset (List.mem_append_left _ hb)
  rcases slabBlocks_bounds (Nat.le_add_left _ _) h.class_lt hmem with ⟨h1, h2⟩
  have hpos := Nat.two_pow_pos (k + S_8B)
  exact OsLab.slabOf_eq h.dvd (by omega) (by omega)

/-- A free block is not live. -/
theorem SlabGood.not_live (h : SlabGood s cpu k S) (hb : b ∈ (s.slab S).freeList) :
    b ∉ s.live := by
  intro hlive
  have hnd := h.blocks.nodup_iff.2 nodup_slabBlocks
  refine (List.nodup_append.1 hnd).2.2 b hb b ?_ rfl
  exact List.mem_filter.2 ⟨hlive, decide_eq_true (h.slabOf_eq hb)⟩

theorem StepsInv.take (h : StepsInv n s L) (hn : c < n) (hp : s.pc c = .takeBlock k S)
    {rest : List ℕ} (hfree : (s.slab S).freeList = b :: rest) :
    StepsInv n (({ s with live := b :: s.live }.setSlab S
      { s.slab S with freeList := rest, freeBlockNum := (s.slab S).freeBlockNum - 1 }).goto c
        (.unlockTaken S b)) L := by
  have hS : S ∈ L c k := by
    have hpc := h.pcs c
    rwa [hp] at hpc
  have hg := h.slabs c k S hS
  have hb : b ∈ (s.slab S).freeList := by simp [hfree]
  have hof := hg.slabOf_eq hb
  have hnum : (s.slab S).freeBlockNum - 1 = rest.length := by
    rw [hg.freeBlockNum, hfree, List.length_cons, Nat.add_sub_cancel]
  rw [hnum]
  refine h.account hn (by rw [hp]; rfl) hS (by simp [hp, SlabPc.holds]) ?_ ?_
    (fun _ _ _ _ hb' => List.mem_cons_of_mem _ hb') rfl rfl ?_ ⟨⟨c, k, hS⟩, List.mem_cons_self⟩
  · have hblocks := hg.blocks
    rw [hfree] at hblocks
    rw [List.filter_cons_of_pos (by simpa using hof)]
    exact List.perm_middle.trans hblocks
  · intro T hT
    rw [List.filter_cons_of_neg]
    simpa [hof] using hT.symm
  · -- nobody is about to free a block that is not given out
    intro b' hb' d _ hd
    simp only [SlabPc.block, Option.some.injEq] at hb'
    subst hb'
    exact hg.not_live hb (h.live_of_block hd)

theorem StepsInv.put (h : StepsInv n s L) (hn : c < n) (hp : s.pc c = .putBlock b)
    (hput : slabStep s c = some s') : StepsInv n s' L := by
  have hb : b ∈ s.live := by
    have hpc := h.pcs c
    rwa [hp] at hpc
  rcases h.live b hb with ⟨cpu, k, hS⟩
  have hg := h.slabs cpu k _ hS
  have hnum : (s.slab (slabOf b)).freeBlockNum + 1 = (b :: (s.slab (slabOf b)).freeList).length := by
    rw [hg.freeBlockNum, List.length_cons]
  simp only [slabStep, hp, Option.some.injEq] at hput
  subst hput
  rw [hnum]
  refine h.account hn (by rw [hp]; rfl) hS (by simp [hp, SlabPc.holds]) ?_ ?_ ?_ ?_ ?_ ?_ ?_
  · have hfilter := (List.perm_cons_erase hb).filter fun a => slabOf a = slabOf b
    rw [List.filter_cons_of_pos (by simp)] at hfilter
    exact List.perm_middle.symm.trans ((hfilter.symm.append_left _).trans hg.blocks)
  · intro T hT
    have hfilter := (List.perm_cons_erase hb).filter fun a => slabOf a = T
    rw [List.filter_cons_of_neg (by simpa using hT.symm)] at hfilter
    exact hfilter.symm
  · intro d hd b' hb' hlive
    refine (List.mem_erase_of_ne fun he => ?_).2 hlive
    subst he
    exact hd (h.blocks d c b' hb' (by simp [hp, SlabPc.block]))
  · split <;> rfl
  · split <;> rfl
  · split <;> simp [SlabPc.block]
  · split
    · rename_i hfull
      refine ⟨cpu, k, hS, ?_⟩
      rw [SlabConc.Full, SlabConc.goto_slab, SlabConc.setSlab_slab_self]
      exact hfull
    · exact ⟨cpu, k, hS⟩

/-! ## A new slab -/

theorem SlabPc.owns_of_making (hm : p.making = some S) : S ∈ p.owns :=
  List.mem_append_right _ (by simp [hm])

theorem StepsInv.not_cursor_of_making (h : StepsInv n s L) (hm : (s.pc c).making = some S) :
    ¬ Cursor s L cpu k S := by
  rintro (hS | ⟨d, P, hd, -⟩)
  · exact h.not_listed_of_making hm cpu k hS
  · have hcd := h.apart c d S (SlabPc.owns_of_making hm) (by simp [hd, SlabPc.owns, SlabPc.holds])
    rw [hcd, hd] at hm
    cases hm

theorem StepsInv.page (h : StepsInv n s L) (hn : c < n) (hp : s.pc c = .newPage k)
    (hdvd : 2 ^ 12 ∣ S) (hfree : s.pages S = .free) :
    StepsInv n ({ s with pages := Function.update s.pages S .slab }.goto c (.format k S)) L := by
  have hk : k + S_8B < S_REFUSE := by
    have hpc := h.pcs c
    rwa [hp] at hpc
  -- what is free to `page_alloc` is not in use by the slabs
  have hne : ∀ {T}, s.pages T = .slab → T ≠ S := by
    rintro T hT rfl
    rw [hT] at hfree
    cases hfree
  have hpages : ∀ T, s.pages T = .slab → Function.update s.pages S PageUse.slab T = .slab :=
    fun T hT => (Function.update_of_ne (hne hT) _ _).trans hT
  refine h.keep (fun hc => absurd hn (by omega)) (fun d hd => SlabConc.goto_pc_of_ne _ _ _ hd) rfl
    (by rw [hp]; rfl) (fun _ _ _ _ => rfl) (fun _ _ _ _ => rfl) hpages (fun _ _ _ _ => rfl)
    (fun _ _ _ _ hb => hb) h.live ?_ ?_ ?_ ?_ ?_
  · intro cpu j T hT
    have hg := h.slabs cpu j T hT
    refine hg.congr (v := (s.slab T).locked) (a := (s.slab T).append) rfl .rfl ?_ rfl
    exact (hpages T hg.pages).trans hg.pages.symm
  · rw [SlabConc.goto_pc_self]
    intro T hT
    have he : T = S := by simpa [SlabPc.owns, SlabPc.holds, SlabPc.making] using hT
    subst he
    exact ⟨Function.update_self _ _ _, fun d _ hT => hne (h.owned d T hT) rfl⟩
  · simp [SlabPc.holds]
  · simp [SlabPc.block]
  · rw [SlabConc.goto_pc_self]
    exact ⟨hk, hdvd, fun cpu j hS => hne (h.slabs cpu j S hS).pages rfl⟩

/-- Writing into the page that `c` makes a slab of. -/
theorem StepsInv.make (h : StepsInv n s L) (hn : c < n) (hm : (s.pc c).making = some S)
    (hback : (s.pc c).returns = none) {r : SlabRec} {returned : ℕ → Bool}
    (hret : ∀ T, T ≠ S → returned T = s.returned T) (hholds : p.holds = [])
    (hmaking : p.making = some S) (hblock : p.block = none)
    (hpcs : PcInv (({ s with returned := returned }.setSlab S r).goto c p) L c p) :
    StepsInv n (({ s with returned := returned }.setSlab S r).goto c p) L := by
  have hown := h.alone (SlabPc.owns_of_making hm)
  have hne : ∀ {d T}, d ≠ c → T ∈ (s.pc d).owns → T ≠ S := fun hd hT he => hown.1 _ hd (he ▸ hT)
  have hslab : ∀ T, T ≠ S → Function.update s.slab S r T = s.slab T := fun T hT =>
    Function.update_of_ne hT _ _
  have hlist : ∀ {cpu k T}, T ∈ L cpu k → T ≠ S := fun hT he =>
    h.not_listed_of_making hm _ _ (he ▸ hT)
  refine h.keep (fun hc => absurd hn (by omega)) (fun d hd => SlabConc.goto_pc_of_ne _ _ _ hd) rfl
    hback (fun d hd T hT => hslab T (hne hd hT)) ?_ (fun _ hT => hT)
    (fun d hd T hT => hret T (hne hd hT)) (fun _ _ _ _ hb => hb) h.live ?_ ?_ ?_ ?_ ?_
  · intro cpu k T hT
    exact congrArg SlabRec.append (hslab T fun he => h.not_cursor_of_making hm (he ▸ hT))
  · intro cpu k T hT
    exact (h.slabs cpu k T hT).congr (hslab T (hlist hT)) .rfl rfl (hret T (hlist hT))
  · rw [SlabConc.goto_pc_self]
    intro T hT
    have he : T = S := by simpa [SlabPc.owns, hholds, hmaking] using hT
    subst he
    exact ⟨hown.2, hown.1⟩
  · simp [hholds]
  · simp [hblock]
  · rw [SlabConc.goto_pc_self]
    exact hpcs

theorem StepsInv.format (h : StepsInv n s L) (hn : c < n) (hp : s.pc c = .format k S) :
    StepsInv n (({ s with returned := Function.update s.returned S false }.setSlab S
      (freshSlab c k S (s.slab S).append)).goto c (.linkNew k S)) L := by
  have hraw : Raw L k S := by
    have hpc := h.pcs c
    rwa [hp] at hpc
  refine h.make hn (by rw [hp]; rfl) (by rw [hp]; rfl)
    (fun T hT => Function.update_of_ne hT _ _) rfl rfl rfl ?_
  exact ⟨hraw, Function.update_self _ _ _, (s.slab S).append, SlabConc.setSlab_slab_self _ _ _⟩

theorem StepsInv.linkNew (h : StepsInv n s L) (hn : c < n) (hp : s.pc c = .linkNew k S) :
    StepsInv n ((s.setAppend S (s.head c k)).goto c (.pushNew k S)) L := by
  have hpc := h.pcs c
  rw [hp] at hpc
  rcases hpc with ⟨hraw, hret, link, hrec⟩
  refine h.make hn (by rw [hp]; rfl) (by rw [hp]; rfl) (fun _ _ => rfl) rfl rfl rfl
    ⟨hraw, hret, ?_⟩
  rw [SlabConc.goto_slab, SlabConc.setSlab_slab_self, hrec]
  rfl

/-- The slab becomes the first of its list. -/
theorem StepsInv.pushNew (h : StepsInv n s L) (hn : c < n) (hp : s.pc c = .pushNew k S) :
    StepsInv n ({ s with
      head := Function.update s.head c (Function.update (s.head c) k (some S)) }.goto c
        (.lockNew k S)) (setList L c k (S :: L c k)) := by
  have hpc := h.pcs c
  rw [hp] at hpc
  rcases hpc with ⟨⟨hk, hdvd, hnot⟩, hret, hrec⟩
  have hmem : S ∈ (s.pc c).owns := SlabPc.owns_of_making (by simp [hp, SlabPc.making])
  have hown := h.alone hmem
  have hmono : ∀ {cpu j T}, T ∈ L cpu j → T ∈ setList L c k (S :: L c k) cpu j := fun hT =>
    mem_setList_cons.2 (Or.inr hT)
  have hback : (s.pc c).returns = none := by rw [hp]; rfl
  have hpc' : ∀ d, d ≠ c → _ := fun d hd => SlabConc.goto_pc_of_ne { s with
    head := Function.update s.head c (Function.update (s.head c) k (some S)) } c (.lockNew k S) hd
  refine h.next (c := c) ?_ (fun hc => absurd hn (by omega)) ?_ ?_ ?_ ?_ ?_ ?_ ?_
  · refine ⟨hpc', fun d hd j => ?_, fun _ _ _ _ _ _ hT => hmono hT, ?_,
      fun d _ T _ cpu j hcur => hcur.mono hpc' hback fun _ => hmono, fun _ _ _ _ _ _ h => h,
      fun _ _ _ _ => rfl, fun _ _ _ _ => rfl, fun _ _ _ _ => rfl, fun _ _ _ _ hb => hb,
      fun _ hb => Or.inl hb⟩
    · rw [SlabConc.goto_head]
      exact congrFun (Function.update_of_ne hd _ _) j
    · intro d hd T hT hnone cpu j hmem'
      rcases mem_setList_cons.1 hmem' with ⟨rfl, -, -⟩ | hmem'
      · exact hown.1 d hd hT
      · exact hnone cpu j hmem'
  · -- of the heads only that of `c` and `k` is written
    intro cpu j
    by_cases hcj : cpu = c ∧ j = k
    · rcases hcj with ⟨rfl, rfl⟩
      rw [setList_self, SlabConc.goto_head]
      simp only [Function.update_self]
      refine .cons ?_
      have hlink : (s.slab S).append = s.head cpu j := by
        rw [hrec]
        rfl
      exact hlink ▸ h.chain cpu j
    · rw [setList_of_ne hcj]
      have hhead : Function.update s.head c (Function.update (s.head c) k (some S)) cpu j =
          s.head cpu j := by
        by_cases hc : cpu = c
        · subst hc
          rw [Function.update_self, Function.update_of_ne fun hj => hcj ⟨rfl, hj⟩]
        · rw [Function.update_of_ne hc]
      rw [SlabConc.goto_head]
      simp only [hhead]
      exact h.chain cpu j
  · intro cpu j T hT
    rcases mem_setList_cons.1 hT with ⟨rfl, rfl, rfl⟩ | hT
    · -- the new slab: all its blocks are free, and none was live before
      have hnone : (s.live.filter fun b => slabOf b = T) = [] := by
        refine List.filter_eq_nil_iff.2 fun b hb he => ?_
        rcases h.live b hb with ⟨cpu', j', hmem'⟩
        exact hnot cpu' j' (of_decide_eq_true he ▸ hmem')
      refine ⟨hk, hdvd, ?_, ?_, ?_, ?_, ?_, hown.2, hret⟩ <;> rw [SlabConc.goto_slab, hrec]
      · rfl
      · rfl
      · rfl
      · simp [freshSlab, length_slabBlocks]
      · rw [SlabConc.goto_live, hnone, List.append_nil]
        exact List.reverse_perm _
    · exact (h.slabs cpu j T hT).congr (v := (s.slab T).locked) (a := (s.slab T).append) rfl .rfl
        rfl rfl
  · intro b hb
    rcases h.live b hb with ⟨cpu, j, hT⟩
    exact ⟨cpu, j, hmono hT⟩
  · simp [SlabPc.owns, SlabPc.holds, SlabPc.making]
  · simp [SlabPc.holds]
  · simp [SlabPc.block]
  · rw [SlabConc.goto_pc_self]
    simp [PcInv]

/-! ## A slab leaves its list -/

/-- `recover_slab` unlinks `S`. -/
theorem StepsInv.unlink (h : StepsInv n s L) (hn : c < n) {prev : ℕ} {next : Option ℕ}
    (hp : s.pc c = .unlink S prev next) :
    ∃ L', StepsInv n ((s.setAppend prev next).goto c (.giveBack S prev)) L' := by
  have hpc := h.pcs c
  rw [hp] at hpc
  rcases hpc with ⟨cpu, k, hS, hfull, hprev, happ, hnext⟩
  -- `S` stands right behind `prev`
  obtain ⟨pre, suf, hl⟩ : ∃ pre suf, L cpu k = pre ++ prev :: S :: suf := by
    rcases List.append_of_mem hprev with ⟨pre, suf, hl⟩
    have hch := (hl ▸ h.chain cpu k).next_of_append
    rw [happ, chain_some] at hch
    rcases hch with ⟨suf, rfl, -⟩
    exact ⟨pre, suf, hl⟩
  have hnd := (h.chain cpu k).nodup
  have hmem : ∀ {c' j T}, T ∈ setList L cpu k (pre ++ prev :: suf) c' j ↔ T ∈ L c' j ∧ T ≠ S :=
    mem_setList_unlink hl hnd fun hS' => h.unique hS' hS
  have hne : prev ≠ S := by
    rintro rfl
    rw [hl, List.nodup_append] at hnd
    exact (List.nodup_cons.1 hnd.2.1).1 List.mem_cons_self
  have hholdS : S ∈ (s.pc c).holds := by simp [hp, SlabPc.holds]
  have hholdP : prev ∈ (s.pc c).holds := by simp [hp, SlabPc.holds]
  have hownS := h.alone (SlabPc.owns_of_holds hholdS)
  have hownP := h.alone (SlabPc.owns_of_holds hholdP)
  have hslab : ∀ T, T ≠ prev → ((s.setAppend prev next).goto c (.giveBack S prev)).slab T =
      s.slab T := fun T hT => Function.update_of_ne hT _ _
  have hslabP : ((s.setAppend prev next).goto c (.giveBack S prev)).slab prev =
      { s.slab prev with append := next } := Function.update_self _ _ _
  have hpc' : ∀ d, d ≠ c → ((s.setAppend prev next).goto c (.giveBack S prev)).pc d = s.pc d :=
    fun d hd => SlabConc.goto_pc_of_ne _ _ _ hd
  refine ⟨setList L cpu k (pre ++ prev :: suf), h.next (c := c) ?_ (fun hc => absurd hn (by omega))
    ?_ ?_ ?_ ?_ ?_ ?_ ?_⟩
  · refine ⟨hpc', fun _ _ _ => rfl, ?_, ?_, ?_, ?_, ?_, fun _ _ _ _ => rfl, fun _ _ _ _ => rfl,
      fun _ _ _ _ hb => hb, fun _ hb => Or.inl hb⟩
    · intro d hd T hT cpu' j hTL
      refine hmem.2 ⟨hTL, ?_⟩
      rintro rfl
      exact hownS.1 d hd (SlabPc.owns_of_holds hT)
    · exact fun d _ T _ hnone cpu' j hTL => hnone cpu' j (hmem.1 hTL).1
    · -- a cursor on `S` is now on a slab that is being returned
      rintro d - T - cpu' j (hTL | ⟨e, P, he, hP⟩)
      · by_cases hTS : T = S
        · subst hTS
          rcases h.unique hTL hS with ⟨rfl, rfl⟩
          exact Or.inr ⟨c, prev, SlabConc.goto_pc_self _ _ _, hmem.2 ⟨hprev, hne⟩⟩
        · exact Or.inl (hmem.2 ⟨hTL, hTS⟩)
      · have hec : e ≠ c := by
          rintro rfl
          rw [hp] at he
          cases he
        refine Or.inr ⟨e, P, (hpc' e hec).trans he, hmem.2 ⟨hP, ?_⟩⟩
        rintro rfl
        exact hownS.1 e hec (by simp [he, SlabPc.owns, SlabPc.holds])
    · -- a cursor on `prev` would wait for `S`
      intro d hd T hcur N hN hlink
      have hT : T ≠ prev := by
        rintro rfl
        rw [happ] at hlink
        obtain rfl := Option.some.inj hlink
        exact hownS.1 d hd (SlabPc.owns_of_holds hN)
      rw [hslab T hT]
      exact hlink
    · exact fun d hd T hT => hslab T fun he => hownP.1 d hd (he ▸ hT)
  · intro cpu' j
    by_cases hcj : cpu' = cpu ∧ j = k
    · rcases hcj with ⟨rfl, rfl⟩
      rw [setList_self]
      have hch := (hl ▸ h.chain cpu' j).unlink
      rw [hnext] at hch
      refine hch.congr fun T hT => ?_
      by_cases hTP : T = prev
      · subst hTP
        rw [hslabP, Function.update_self]
      · rw [hslab T hTP, Function.update_of_ne hTP]
    · rw [setList_of_ne hcj]
      refine (h.chain cpu' j).congr fun T hT => ?_
      rw [hslab T fun he => hcj (h.unique (he ▸ hT) hprev)]
  · intro cpu' j T hT
    have hg := h.slabs cpu' j T (hmem.1 hT).1
    by_cases hTP : T = prev
    · subst hTP
      exact hg.congr (v := (s.slab T).locked) hslabP .rfl rfl rfl
    · exact hg.congr (v := (s.slab T).locked) (a := (s.slab T).append) (hslab T hTP) .rfl rfl rfl
  · intro b hb
    rcases h.live b hb with ⟨cpu', j, hT⟩
    exact ⟨cpu', j, hmem.2 ⟨hT, h.not_live_of_full hS hfull b hb⟩⟩
  · rw [SlabConc.goto_pc_self]
    intro T hT
    rcases (by simpa [SlabPc.owns, SlabPc.holds, SlabPc.making] using hT : T = S ∨ T = prev) with
      rfl | rfl
    · exact ⟨hownS.2, hownS.1⟩
    · exact ⟨hownP.2, hownP.1⟩
  · rw [SlabConc.goto_pc_self]
    intro T hT
    rcases (by simpa [SlabPc.holds] using hT : T = S ∨ T = prev) with rfl | rfl
    · rw [hslab T hne.symm]
      exact h.locked c T hholdS
    · rw [hslabP]
      exact h.locked c T hholdP
  · simp [SlabPc.block]
  · rw [SlabConc.goto_pc_self]
    refine ⟨fun cpu' j hSL => (hmem.1 hSL).2 rfl, ⟨cpu, k, hmem.2 ⟨hprev, hne⟩⟩, ?_,
      (h.slabs cpu k S hS).returned, h.not_live_of_full hS hfull⟩
    rw [hslab S hne.symm, hslabP, hnext]

/-- `recover_slab` returns `S`; nobody else is about to use it. -/
theorem StepsInv.giveBack (h : StepsInv n s L) (hn : c < n) {prev : ℕ}
    (hp : s.pc c = .giveBack S prev) (hno : ∀ d < n, d ≠ c → (s.pc d).cursor ≠ some S) :
    StepsInv n ({ s with
      pages := Function.update s.pages S .free
      returned := Function.update s.returned S true }.goto c (.unlockPrev prev)) L := by
  have hpc := h.pcs c
  rw [hp] at hpc
  rcases hpc with ⟨hnot, ⟨cpu, k, hprev⟩, -, -, -⟩
  have hholdP : prev ∈ (s.pc c).holds := by simp [hp, SlabPc.holds]
  have hownS := h.alone (SlabPc.owns_of_holds (by simp [hp, SlabPc.holds] : S ∈ (s.pc c).holds))
  have hownP := h.alone (SlabPc.owns_of_holds hholdP)
  have hne : prev ≠ S := fun he => hnot cpu k (he ▸ hprev)
  have hpages : ∀ T, T ≠ S → Function.update s.pages S PageUse.free T = s.pages T := fun T hT =>
    Function.update_of_ne hT _ _
  have hret : ∀ T, T ≠ S → Function.update s.returned S true T = s.returned T := fun T hT =>
    Function.update_of_ne hT _ _
  have hothers : ∀ d, d ≠ c → ∀ T ∈ (s.pc d).owns, T ≠ S := fun d hd T hT he =>
    hownS.1 d hd (he ▸ hT)
  have hpc' : ∀ d, d ≠ c → _ := fun d hd => SlabConc.goto_pc_of_ne { s with
    pages := Function.update s.pages S .free
    returned := Function.update s.returned S true } c (.unlockPrev prev) hd
  refine h.next (c := c) ?_ (fun hc => absurd hn (by omega)) h.chain ?_ h.live ?_ ?_ ?_ ?_
  · refine ⟨hpc', fun _ _ _ => rfl, fun _ _ _ _ _ _ hT => hT, fun _ _ _ _ hT => hT, ?_,
      fun _ _ _ _ _ _ h => h, fun _ _ _ _ => rfl, fun d hd T hT => hpages T (hothers d hd T hT),
      fun d hd T hT => hret T (hothers d hd T hT), fun _ _ _ _ hb => hb, fun _ hb => Or.inl hb⟩
    rintro d hd T hcur cpu' j (hTL | ⟨e, P, he, hP⟩)
    · exact Or.inl hTL
    · -- the slab that `c` was returning is nobody's cursor
      have hec : e ≠ c := by
        rintro rfl
        have heq : T = S := by
          rw [hp] at he
          cases he
          rfl
        subst heq
        have hdn : d < n := by
          refine Nat.lt_of_not_le fun hle => ?_
          rw [h.idle d hle] at hcur
          cases hcur
        exact hno d hdn hd hcur
      exact Or.inr ⟨e, P, (hpc' e hec).trans he, hP⟩
  · intro cpu' j T hT
    have hTS : T ≠ S := fun he => hnot cpu' j (he ▸ hT)
    exact (h.slabs cpu' j T hT).congr (v := (s.slab T).locked) (a := (s.slab T).append) rfl .rfl
      (hpages T hTS) (hret T hTS)
  · rw [SlabConc.goto_pc_self]
    intro T hT
    have he : T = prev := by simpa [SlabPc.owns, SlabPc.holds, SlabPc.making] using hT
    subst he
    exact ⟨(hpages T hne).trans hownP.2, hownP.1⟩
  · rw [SlabConc.goto_pc_self]
    intro T hT
    rw [List.mem_singleton.1 hT]
    exact h.locked c prev hholdP
  · simp [SlabPc.block]
  · rw [SlabConc.goto_pc_self]
    exact ⟨cpu, k, hprev⟩

/-- What others do to pages that the slabs do not use. -/
theorem StepsInv.outside (h : StepsInv n s L) {slab : ℕ → SlabRec} {pages : ℕ → PageUse}
    (hout : ∀ S, s.pages S = .slab → slab S = s.slab S ∧ pages S = .slab) :
    StepsInv n { s with slab := slab, pages := pages } L := by
  have hidle := h.idle n le_rfl
  refine h.keep (c := n) (fun _ => hidle) (fun _ _ => rfl) rfl (by rw [hidle]; rfl)
    (fun d _ S hS => (hout S (h.owned d S hS)).1) ?_ (fun S hS => (hout S hS).2)
    (fun _ _ _ _ => rfl) (fun _ _ _ _ hb => hb) h.live ?_ ?_ ?_ ?_ ?_
  · exact fun _ _ S hcur => congrArg SlabRec.append (hout S (h.pages_of_cursor hcur)).1
  · intro cpu k S hS
    have hg := h.slabs cpu k S hS
    rcases hout S hg.pages with ⟨h1, h2⟩
    exact hg.congr (v := (s.slab S).locked) (a := (s.slab S).append) h1 .rfl
      (h2.trans hg.pages.symm) rfl
  · simp [hidle, SlabPc.owns, SlabPc.holds, SlabPc.making]
  · simp [hidle, SlabPc.holds]
  · simp [hidle, SlabPc.block]
  · rw [show ({ s with slab := slab, pages := pages } : SlabConc).pc n = .idle from hidle]
    trivial

end OsLab
