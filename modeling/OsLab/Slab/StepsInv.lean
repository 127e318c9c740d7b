import OsLab.Slab.Steps
import OsLab.Slab.Lists

/-! # What holds between the steps

`StepsInv n s L`: the lists are `L`, a CPU that holds a lock or makes a slab is
alone with it, and every CPU is where the lists allow it to be (`PcInv`). The
delicate part is the slab a CPU is about to use without its lock (`Cursor`): it
is on its list, or has just been unlinked and not yet been returned.

`Undisturbed c s L s' L'` collects what a step of CPU `c` must leave alone so
that the other CPUs do not notice it.
-/

namespace OsLab

open Buddy PtrList Trace

variable {n : ℕ} {s s' : SlabConc} {L L' : ℕ → ℕ → List ℕ} {c d cpu k S N b : ℕ}

/-- All locks it holds, and the page it makes a slab of. -/
def SlabPc.owns (p : SlabPc) : List ℕ := p.holds ++ p.making.toList

/-- `S` is on the list, or a CPU has just unlinked it from there and is about to return it. -/
def Cursor (s : SlabConc) (L : ℕ → ℕ → List ℕ) (cpu k S : ℕ) : Prop :=
  S ∈ L cpu k ∨ ∃ c P, s.pc c = .giveBack S P ∧ P ∈ L cpu k

/-- All blocks of `S` are free. -/
def SlabConc.Full (s : SlabConc) (S : ℕ) : Prop := (s.slab S).freeBlockNum = (s.slab S).blockNum

/-- A page that may become a slab of class index `k`. -/
def Raw (L : ℕ → ℕ → List ℕ) (k S : ℕ) : Prop :=
  k + S_8B < S_REFUSE ∧ 2 ^ 12 ∣ S ∧ ∀ cpu j, S ∉ L cpu j

/-- What CPU `c` may rely on at `p`. -/
def PcInv (s : SlabConc) (L : ℕ → ℕ → List ℕ) (c : ℕ) : SlabPc → Prop
  | .idle => True
  | .readHead k | .newPage k => k + S_8B < S_REFUSE
  | .lockHead k S | .lockNew k S => s.head c k = some S
  | .readCount k S | .testAppend k S | .unlockLast k S | .readAppend k S => S ∈ L c k
  | .testNew k S | .takeBlock k S => S ∈ L c k
  | .lockNext k S N | .unlockSlab k S N => S ∈ L c k ∧ (s.slab S).append = some N
  | .advance k S N => Cursor s L c k S ∧ (s.slab S).append = some N ∧ N ∈ L c k
  | .format k S => Raw L k S
  | .linkNew k S => Raw L k S ∧ s.returned S = false ∧ ∃ link, s.slab S = freshSlab c k S link
  | .pushNew k S => Raw L k S ∧ s.returned S = false ∧ s.slab S = freshSlab c k S (s.head c k)
  | .unlockTaken S b => (∃ cpu k, S ∈ L cpu k) ∧ b ∈ s.live
  | .lockOwn b | .putBlock b => b ∈ s.live
  | .unlockOwn S | .unlockPrev S => ∃ cpu k, S ∈ L cpu k
  | .tryOwn S | .recoverHead S => ∃ cpu k, S ∈ L cpu k ∧ s.Full S
  | .walk S prev => ∃ cpu k, S ∈ L cpu k ∧ s.Full S ∧ Cursor s L cpu k prev
  | .tryPrev S prev =>
      ∃ cpu k, S ∈ L cpu k ∧ s.Full S ∧ Cursor s L cpu k prev ∧ (s.slab prev).append = some S
  | .readLink S prev =>
      ∃ cpu k, S ∈ L cpu k ∧ s.Full S ∧ prev ∈ L cpu k ∧ (s.slab prev).append = some S
  | .unlink S prev next =>
      ∃ cpu k, S ∈ L cpu k ∧ s.Full S ∧ prev ∈ L cpu k ∧ (s.slab prev).append = some S ∧
        (s.slab S).append = next
  | .giveBack S prev =>
      (∀ cpu k, S ∉ L cpu k) ∧ (∃ cpu k, prev ∈ L cpu k) ∧
        (s.slab S).append = (s.slab prev).append ∧ s.returned S = false ∧
        ∀ b ∈ s.live, slabOf b ≠ S

/-- A slab on the list of `cpu` and `k`: its labels, and the account of its blocks. -/
structure SlabGood (s : SlabConc) (cpu k S : ℕ) : Prop where
  class_lt : k + S_8B < S_REFUSE
  dvd : 2 ^ 12 ∣ S
  cpuId : (s.slab S).cpuId = cpu
  type : (s.slab S).type = k + S_8B
  blockNum : (s.slab S).blockNum = slabBlockNum (k + S_8B)
  freeBlockNum : (s.slab S).freeBlockNum = (s.slab S).freeList.length
  blocks : ((s.slab S).freeList ++ s.live.filter fun b => slabOf b = S).Perm
    (slabBlocks S (k + S_8B))
  pages : s.pages S = .slab
  returned : s.returned S = false

/-- The invariant of `n` CPUs. -/
structure StepsInv (n : ℕ) (s : SlabConc) (L : ℕ → ℕ → List ℕ) : Prop where
  idle : ∀ c, n ≤ c → s.pc c = .idle
  chain : ∀ cpu k, Chain (fun S => (s.slab S).append) (s.head cpu k) (L cpu k)
  slabs : ∀ cpu k, ∀ S ∈ L cpu k, SlabGood s cpu k S
  live : ∀ b ∈ s.live, ∃ cpu k, slabOf b ∈ L cpu k
  owned : ∀ c, ∀ S ∈ (s.pc c).owns, s.pages S = .slab
  apart : ∀ c d S, S ∈ (s.pc c).owns → S ∈ (s.pc d).owns → c = d
  locked : ∀ c, ∀ S ∈ (s.pc c).holds, (s.slab S).locked = true
  blocks : ∀ c d b, (s.pc c).block = some b → (s.pc d).block = some b → c = d
  pcs : ∀ c, PcInv s L c (s.pc c)

theorem SlabPc.owns_of_holds {p : SlabPc} (h : S ∈ p.holds) : S ∈ p.owns :=
  List.mem_append_left _ h

/-! ## Lists and locks -/

section Facts

variable (h : StepsInv n s L)

include h

theorem StepsInv.unique {cpu' k' : ℕ} (hS : S ∈ L cpu k) (hS' : S ∈ L cpu' k') :
    cpu = cpu' ∧ k = k' := by
  have h1 := h.slabs cpu k S hS
  have h2 := h.slabs cpu' k' S hS'
  have h3 := h1.type.symm.trans h2.type
  exact ⟨h1.cpuId.symm.trans h2.cpuId, by omega⟩

/-- The head of a list is on it. -/
theorem StepsInv.mem_of_head (hhead : s.head cpu k = some S) : S ∈ L cpu k := by
  have hch := h.chain cpu k
  rw [hhead, chain_some] at hch
  rcases hch with ⟨l, hl, -⟩
  rw [hl]
  exact List.mem_cons_self

/-- So is what a slab on it links to. -/
theorem StepsInv.mem_of_append (hS : S ∈ L cpu k) (happ : (s.slab S).append = some N) :
    N ∈ L cpu k := by
  rcases List.append_of_mem hS with ⟨pre, suf, hl⟩
  have hch := (hl ▸ h.chain cpu k).next_of_append
  rw [happ, chain_some] at hch
  rcases hch with ⟨l, rfl, -⟩
  simp [hl]

/-- Following the link of a cursor leads back to the list. -/
theorem StepsInv.mem_of_cursor (hS : Cursor s L cpu k S) (happ : (s.slab S).append = some N) :
    N ∈ L cpu k := by
  rcases hS with hS | ⟨c, P, hpc, hP⟩
  · exact h.mem_of_append hS happ
  · have hback := h.pcs c
    rw [hpc] at hback
    exact h.mem_of_append hP (hback.2.2.1.symm.trans happ)

/-- A slab that is on a list or was just unlinked has not been returned. -/
theorem StepsInv.returned_of_cursor (hS : Cursor s L cpu k S) : s.returned S = false := by
  rcases hS with hS | ⟨c, P, hpc, -⟩
  · exact (h.slabs cpu k S hS).returned
  · have hback := h.pcs c
    rw [hpc] at hback
    exact hback.2.2.2.1

/-- A page in the making is on no list. -/
theorem StepsInv.not_listed_of_making (hm : (s.pc c).making = some S) : ∀ cpu k, S ∉ L cpu k := by
  have hpc := h.pcs c
  cases hp : s.pc c <;> rw [hp] at hm hpc <;> simp only [SlabPc.making, Option.some.injEq,
    reduceCtorEq] at hm <;> subst hm
  · exact hpc.2.2
  · exact hpc.1.2.2
  · exact hpc.1.2.2

/-- Nobody holds or makes a slab that is on a list with its lock free. -/
theorem StepsInv.not_owned_of_unlocked (hS : S ∈ L cpu k) (hfree : (s.slab S).locked = false) :
    ∀ d, S ∉ (s.pc d).owns := by
  intro d hd
  rcases List.mem_append.1 hd with hd | hd
  · rw [h.locked d S hd] at hfree
    cases hfree
  · exact h.not_listed_of_making (Option.mem_toList.1 hd) cpu k hS

/-- Only the CPU that unlinked a slab can hold it: a free lock means that a cursor is listed. -/
theorem StepsInv.listed_of_unlocked (hS : Cursor s L cpu k S) (hfree : (s.slab S).locked = false) :
    S ∈ L cpu k := by
  rcases hS with hS | ⟨c, P, hpc, -⟩
  · exact hS
  · have hlock := h.locked c S (by rw [hpc]; simp [SlabPc.holds])
    rw [hlock] at hfree
    cases hfree

/-- The account of a slab without free blocks taken: nothing in it is live. -/
theorem StepsInv.not_live_of_full (hS : S ∈ L cpu k) (hfull : s.Full S) :
    ∀ b ∈ s.live, slabOf b ≠ S := by
  intro b hb he
  have hg := h.slabs cpu k S hS
  have hlen := hg.blocks.length_eq
  rw [List.length_append, length_slabBlocks, ← hg.blockNum, ← hg.freeBlockNum, hfull] at hlen
  have hnil : s.live.filter (fun b => slabOf b = S) = [] := List.eq_nil_of_length_eq_zero (by omega)
  have hmem : b ∈ s.live.filter fun b => slabOf b = S :=
    List.mem_filter.2 ⟨hb, decide_eq_true he⟩
  rw [hnil] at hmem
  cases hmem

/-- What a CPU touches next has not been returned. -/
theorem StepsInv.untouched (hS : (s.pc c).touches = some S) : s.returned S = false := by
  have hlisted : ∀ {cpu k S}, S ∈ L cpu k → s.returned S = false := fun hS =>
    (h.slabs _ _ _ hS).returned
  have hpc := h.pcs c
  cases hp : s.pc c <;> rw [hp] at hS hpc <;>
    simp only [SlabPc.touches, Option.some.injEq, reduceCtorEq] at hS <;> subst hS
  case lockHead | lockNew => exact hlisted (h.mem_of_head hpc)
  case readCount | testAppend | unlockLast | readAppend | testNew | takeBlock => exact hlisted hpc
  case lockNext => exact hlisted (h.mem_of_append hpc.1 hpc.2)
  case unlockSlab => exact hlisted hpc.1
  case advance => exact h.returned_of_cursor hpc.1
  case linkNew => exact hpc.2.1
  case unlockTaken =>
    rcases hpc with ⟨⟨cpu, k, hS⟩, -⟩
    exact hlisted hS
  case lockOwn | putBlock =>
    rcases h.live _ hpc with ⟨cpu, k, hS⟩
    exact hlisted hS
  case unlockOwn | unlockPrev =>
    rcases hpc with ⟨cpu, k, hS⟩
    exact hlisted hS
  case tryOwn | recoverHead =>
    rcases hpc with ⟨cpu, k, hS, -⟩
    exact hlisted hS
  case walk =>
    rcases hpc with ⟨cpu, k, -, -, hcur⟩
    exact h.returned_of_cursor hcur
  case tryPrev =>
    rcases hpc with ⟨cpu, k, -, -, hcur, -⟩
    exact h.returned_of_cursor hcur
  case readLink =>
    rcases hpc with ⟨cpu, k, hS, -⟩
    exact hlisted hS
  case unlink =>
    rcases hpc with ⟨cpu, k, -, -, hprev, -⟩
    exact hlisted hprev

end Facts

/-! ## What a step of one CPU leaves to the others -/

/-- The CPUs other than `c` do not notice that `s`, `L` became `s'`, `L'`. -/
structure Undisturbed (c : ℕ) (s : SlabConc) (L : ℕ → ℕ → List ℕ) (s' : SlabConc)
    (L' : ℕ → ℕ → List ℕ) : Prop where
  pc : ∀ d, d ≠ c → s'.pc d = s.pc d
  head : ∀ d, d ≠ c → ∀ k, s'.head d k = s.head d k
  listed : ∀ d, d ≠ c → ∀ S ∈ (s.pc d).holds, ∀ cpu k, S ∈ L cpu k → S ∈ L' cpu k
  unlisted : ∀ d, d ≠ c → ∀ S ∈ (s.pc d).owns, (∀ cpu k, S ∉ L cpu k) → ∀ cpu k, S ∉ L' cpu k
  cursor : ∀ d, d ≠ c → ∀ S, (s.pc d).cursor = some S → ∀ cpu k,
    Cursor s L cpu k S → Cursor s' L' cpu k S
  link : ∀ d, d ≠ c → ∀ S, (s.pc d).cursor = some S → ∀ N ∈ (s.pc d).holds,
    (s.slab S).append = some N → (s'.slab S).append = some N
  slab : ∀ d, d ≠ c → ∀ S ∈ (s.pc d).owns, s'.slab S = s.slab S
  pages : ∀ d, d ≠ c → ∀ S ∈ (s.pc d).owns, s'.pages S = s.pages S
  returned : ∀ d, d ≠ c → ∀ S ∈ (s.pc d).owns, s'.returned S = s.returned S
  live : ∀ d, d ≠ c → ∀ b, (s.pc d).block = some b → b ∈ s.live → b ∈ s'.live
  fresh : ∀ b ∈ s'.live, b ∈ s.live ∨ ∃ cpu k, slabOf b ∈ L' cpu k

/-- So they may rely on what they relied on before. -/
theorem Undisturbed.pcInv (hu : Undisturbed c s L s' L') (hd : d ≠ c)
    (hpc : PcInv s L d (s.pc d)) : PcInv s' L' d (s.pc d) := by
  have hlisted := hu.listed d hd
  have hunlisted := hu.unlisted d hd
  have hcursor := hu.cursor d hd
  have hlink := hu.link d hd
  have hslab := hu.slab d hd
  have hreturned := hu.returned d hd
  have hlive := hu.live d hd
  -- each place names what it relies on: the slabs it holds, makes or walks past, and its block
  cases hp : s.pc d <;> rw [hp] at hpc hlisted hunlisted hcursor hlink hslab hreturned hlive <;>
    simp only [SlabPc.holds, SlabPc.owns, SlabPc.making, SlabPc.cursor, SlabPc.block,
      Option.toList_some, Option.toList_none, List.append_nil, List.nil_append, List.mem_cons,
      List.not_mem_nil, or_false, forall_eq, forall_eq_or_imp, Option.some.injEq, forall_eq',
      reduceCtorEq, false_imp_iff, implies_true]
      at hlisted hunlisted hcursor hlink hslab hreturned hlive
  case idle => trivial
  case readHead | newPage => exact hpc
  case lockHead | lockNew => exact (hu.head d hd _).trans hpc
  case readCount | testAppend | unlockLast | readAppend | testNew | takeBlock =>
    exact hlisted _ _ hpc
  case lockNext => exact ⟨hlisted _ _ hpc.1, by rw [hslab]; exact hpc.2⟩
  case unlockSlab => exact ⟨hlisted.1 _ _ hpc.1, by rw [hslab.1]; exact hpc.2⟩
  case advance => exact ⟨hcursor _ _ hpc.1, hlink hpc.2.1, hlisted _ _ hpc.2.2⟩
  case format => exact ⟨hpc.1, hpc.2.1, hunlisted hpc.2.2⟩
  case linkNew =>
    rcases hpc with ⟨⟨hk, hdvd, hnot⟩, hret, link, hrec⟩
    exact ⟨⟨hk, hdvd, hunlisted hnot⟩, hreturned.trans hret, link, hslab.trans hrec⟩
  case pushNew =>
    rcases hpc with ⟨⟨hk, hdvd, hnot⟩, hret, hrec⟩
    refine ⟨⟨hk, hdvd, hunlisted hnot⟩, hreturned.trans hret, hslab.trans ?_⟩
    rw [hrec, hu.head d hd]
  case unlockTaken =>
    rcases hpc with ⟨⟨cpu, k, hS⟩, hb⟩
    exact ⟨⟨cpu, k, hlisted _ _ hS⟩, hlive hb⟩
  case lockOwn | putBlock => exact hlive hpc
  case unlockOwn | unlockPrev =>
    rcases hpc with ⟨cpu, k, hS⟩
    exact ⟨cpu, k, hlisted _ _ hS⟩
  case tryOwn | recoverHead =>
    rcases hpc with ⟨cpu, k, hS, hfull⟩
    refine ⟨cpu, k, hlisted _ _ hS, ?_⟩
    rwa [SlabConc.Full, hslab]
  case walk =>
    rcases hpc with ⟨cpu, k, hS, hfull, hcur⟩
    refine ⟨cpu, k, hlisted _ _ hS, ?_, hcursor _ _ hcur⟩
    rwa [SlabConc.Full, hslab]
  case tryPrev =>
    rcases hpc with ⟨cpu, k, hS, hfull, hcur, happ⟩
    refine ⟨cpu, k, hlisted _ _ hS, ?_, hcursor _ _ hcur, hlink happ⟩
    rwa [SlabConc.Full, hslab]
  case readLink =>
    rcases hpc with ⟨cpu, k, hS, hfull, hprev, happ⟩
    refine ⟨cpu, k, hlisted.1 _ _ hS, ?_, hlisted.2 _ _ hprev, by rw [hslab.2]; exact happ⟩
    rwa [SlabConc.Full, hslab.1]
  case unlink =>
    rcases hpc with ⟨cpu, k, hS, hfull, hprev, happ, hnext⟩
    refine ⟨cpu, k, hlisted.1 _ _ hS, ?_, hlisted.2 _ _ hprev, by rw [hslab.2]; exact happ,
      by rw [hslab.1]; exact hnext⟩
    rwa [SlabConc.Full, hslab.1]
  case giveBack =>
    rcases hpc with ⟨hnot, ⟨cpu, k, hprev⟩, happ, hret, hdead⟩
    have hnot' := hunlisted.1 hnot
    refine ⟨hnot', ⟨cpu, k, hlisted.2 _ _ hprev⟩, by rw [hslab.1, hslab.2]; exact happ,
      hreturned.1.trans hret, fun b hb he => ?_⟩
    rcases hu.fresh b hb with hb | ⟨cpu, k, hmem⟩
    · exact hdead b hb he
    · exact hnot' cpu k (he ▸ hmem)

/-- What at most one CPU has, at most one has after `c` got it from nobody else. -/
theorem atMostOne_of_step {P Q : ℕ → Prop} (h : ∀ d e, P d → P e → d = e)
    (hothers : ∀ d, d ≠ c → Q d → P d) (hnew : Q c → ∀ d, d ≠ c → ¬ P d) {d e : ℕ} (hd : Q d)
    (he : Q e) : d = e := by
  by_cases hdc : d = c <;> by_cases hec : e = c
  · exact hdc.trans hec.symm
  · subst hdc
    exact absurd (hothers e hec he) (hnew hd e hec)
  · subst hec
    exact absurd (hothers d hdc hd) (hnew he d hdc)
  · exact h d e (hothers d hdc hd) (hothers e hec he)

/-- The invariant after a step of CPU `c`: what is left to show concerns the lists and `c`. -/
theorem StepsInv.next (h : StepsInv n s L) (hu : Undisturbed c s L s' L')
    (hidle : n ≤ c → s'.pc c = .idle)
    (hchain : ∀ cpu k, Chain (fun S => (s'.slab S).append) (s'.head cpu k) (L' cpu k))
    (hslabs : ∀ cpu k, ∀ S ∈ L' cpu k, SlabGood s' cpu k S)
    (hlive : ∀ b ∈ s'.live, ∃ cpu k, slabOf b ∈ L' cpu k)
    (howned : ∀ S ∈ (s'.pc c).owns, s'.pages S = .slab ∧ ∀ d, d ≠ c → S ∉ (s.pc d).owns)
    (hlocked : ∀ S ∈ (s'.pc c).holds, (s'.slab S).locked = true)
    (hblock : ∀ b, (s'.pc c).block = some b → ∀ d, d ≠ c → (s.pc d).block ≠ some b)
    (hpcs : PcInv s' L' c (s'.pc c)) : StepsInv n s' L' := by
  -- the CPUs but `c` are where they were, and find what they had
  refine ⟨?_, hchain, hslabs, hlive, ?_, ?_, ?_, ?_, ?_⟩
  · intro d hd
    by_cases hdc : d = c
    · subst hdc
      exact hidle hd
    · rw [hu.pc d hdc]
      exact h.idle d hd
  · intro d S hS
    by_cases hdc : d = c
    · subst hdc
      exact (howned S hS).1
    · rw [hu.pc d hdc] at hS
      rw [hu.pages d hdc S hS]
      exact h.owned d S hS
  · intro d e S
    refine atMostOne_of_step (c := c) (P := fun d => S ∈ (s.pc d).owns)
      (Q := fun d => S ∈ (s'.pc d).owns) (fun d e => h.apart d e S)
      (fun d hdc hd => ?_) fun hS => (howned S hS).2
    rwa [hu.pc d hdc] at hd
  · intro d S hS
    by_cases hdc : d = c
    · subst hdc
      exact hlocked S hS
    · rw [hu.pc d hdc] at hS
      rw [hu.slab d hdc S (SlabPc.owns_of_holds hS)]
      exact h.locked d S hS
  · intro d e b
    refine atMostOne_of_step (c := c) (P := fun d => (s.pc d).block = some b)
      (Q := fun d => (s'.pc d).block = some b) (fun d e => h.blocks d e b)
      (fun d hdc hd => ?_) (hblock b)
    rwa [hu.pc d hdc] at hd
  · intro d
    by_cases hdc : d = c
    · subst hdc
      exact hpcs
    · rw [hu.pc d hdc]
      exact hu.pcInv hdc (h.pcs d)

end OsLab
