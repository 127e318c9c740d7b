import OsLab.Page.Run

/-! # The page allocator on many CPUs

Any number of CPUs call `page_alloc` and `page_free`; what a CPU does between
taking a `page_locks[i]` and releasing it is one step. `page_alloc` visits the
units one after another (`visitUnit` is the locked section on one unit, and
`pageAlloc_eq_visits` says that run alone the visits are `page_alloc`), so
between two visits the other CPUs may do anything.

`ConcInv` is the invariant: whatever the order of the steps, the trees represent
buddy trees that have given out all live blocks.
-/

namespace OsLab

open Buddy Trace

/-! ## The locked section of `page_alloc` -/

/-- What `page_alloc` does under `page_locks[i]`: on a unit whose root is too small nothing, else
it allocates there and has its answer. -/
def visitUnit (reqSize i : ℕ) (σ : PageSys) : Option (Option (Option ℕ) × PageSys) :=
  (σ.lockPage i).map fun σ₁ =>
    if σ₁.node (σ₁.pagePool i) 1 ≥ reqSize then
      let r := allocSpaceFromPage (σ₁.pagePool i) reqSize σ₁
      (some r.1, r.2.unlockPage i)
    else (none, σ₁.unlockPage i)

/-- The visits of `n` units from unit `i` on, until one has an answer. -/
def visitUnits (reqSize : ℕ) : ℕ → ℕ → PageSys → Option (Option ℕ × PageSys)
  | 0, _, σ => some (none, σ)
  | n + 1, i, σ =>
      (visitUnit reqSize i σ).bind fun
        | (none, σ₁) => visitUnits reqSize n (i + 1) σ₁
        | (some answer, σ₁) => some (answer, σ₁)

/-- Without other CPUs in between, `page_alloc` is its visits. -/
theorem pageAlloc_eq_visits {size : ℕ} (h : ¬ 2 ^ 24 < size) (σ : PageSys) :
    pageAlloc size σ = visitUnits (transPageSize size) σ.realPageNum 0 σ := by
  rw [pageAlloc_eq h]
  generalize transPageSize size = c
  suffices hgen : ∀ n i (σ : PageSys), i + n ≤ σ.realPageNum →
      (findPage c n i σ).bind (allocFound c) = visitUnits c n i σ from
    hgen _ _ σ (by omega)
  intro n
  induction n with
  | zero => exact fun i σ _ => rfl
  | succ n ih =>
      intro i σ hn
      rw [findPage, visitUnits, visitUnit]
      cases hlock : σ.lockPage i with
      | none => rfl
      | some σ₁ =>
          have hnum : σ₁.realPageNum = σ.realPageNum := by
            rcases Option.map_eq_some_iff.1 hlock with ⟨v, -, rfl⟩
            rfl
          simp only [Option.bind_some, Option.map_some]
          by_cases hge : σ₁.node (σ₁.pagePool i) 1 ≥ c
          · simp only [if_pos hge, Option.bind_some, allocFound]
            rw [if_neg (by omega)]
          · simp only [if_neg hge]
            exact ih (i + 1) (σ₁.unlockPage i) (by
              have : (σ₁.unlockPage i).realPageNum = σ₁.realPageNum := rfl
              omega)

/-- A visit of a unit of trees that represent `T`. -/
theorem visitUnit_cases {heap : Area} {σ : PageSys} {T : ℕ → BuddyTree 12}
    (h : σ.Represents heap T) {c i : ℕ} (hi : i < heap.units) (hc : P_4K ≤ c) :
    ((T i).summary P_4K < c ∧ visitUnit c i σ = some (none, σ)) ∨
    (∃ o t' σ', (T i).alloc P_4K c = some (o, t') ∧
      visitUnit c i σ = some (some (some (heap.unitAddr i + o)), σ') ∧
      σ'.Represents heap (Function.update T i t')) := by
  have hroot : (σ.locked i).node ((σ.locked i).pagePool i) 1 = (T i).summary P_4K := h.root hi
  unfold visitUnit
  rw [PageSys.lockPage_eq (h.locks i), Option.map_some]
  rcases Nat.lt_or_ge ((T i).summary P_4K) c with hlt | hge
  · left
    rw [if_neg (by omega), PageSys.unlockPage_locked (h.locks i)]
    exact ⟨hlt, rfl⟩
  · right
    rcases h.allocLocked hi hc hge with ⟨o, t', σ', ha, hget, hrep, -⟩
    refine ⟨o, t', _, ha, ?_, hrep⟩
    rw [if_pos (by omega)]
    exact congrArg (fun r : Option ℕ × PageSys => some (some r.1, r.2.unlockPage i)) hget

/-! ## The system -/

/-- Where a CPU is: outside the allocator, in `page_alloc(size)` before the visit of unit `i`, or
in `page_free(ptr)` before its locked section. -/
inductive PagePc
  | idle
  | search (size i : ℕ)
  | release (ptr : ℕ)

/-- The allocator, what every CPU is doing in it, and the live blocks. -/
structure PageConc where
  sys : PageSys
  pc : ℕ → PagePc
  live : List PageBlock

inductive PageEvent
  | callAlloc (cpu size : ℕ)
  | visit (cpu : ℕ)
  | giveUp (cpu : ℕ)
  | callFree (cpu : ℕ) (b : PageBlock)
  | release (cpu : ℕ)

/-- CPU `cpu` is at `p` from now on. -/
def PageConc.goto (s : PageConc) (cpu : ℕ) (p : PagePc) : ℕ → PagePc :=
  Function.update s.pc cpu p

/-- The steps of all CPUs. -/
inductive ConcStep : PageConc → PageEvent → PageConc → Prop
  | callAlloc {s : PageConc} {cpu size : ℕ} :
      s.pc cpu = .idle →
      ConcStep s (.callAlloc cpu size) { s with pc := s.goto cpu (.search size 0) }
  | visitFull {s : PageConc} {cpu size i : ℕ} {σ' : PageSys} :
      s.pc cpu = .search size i → transPageSize size ≠ P_REFUSE → i < s.sys.realPageNum →
      visitUnit (transPageSize size) i s.sys = some (none, σ') →
      ConcStep s (.visit cpu) { s with sys := σ', pc := s.goto cpu (.search size (i + 1)) }
  | visitRoom {s : PageConc} {cpu size i : ℕ} {answer : Option ℕ} {σ' : PageSys} :
      s.pc cpu = .search size i → transPageSize size ≠ P_REFUSE → i < s.sys.realPageNum →
      visitUnit (transPageSize size) i s.sys = some (some answer, σ') →
      ConcStep s (.visit cpu) ⟨σ', s.goto cpu .idle, newBlocks size answer ++ s.live⟩
  | giveUp {s : PageConc} {cpu size i : ℕ} :
      s.pc cpu = .search size i → (transPageSize size = P_REFUSE ∨ s.sys.realPageNum ≤ i) →
      ConcStep s (.giveUp cpu) { s with pc := s.goto cpu .idle }
  | callFree {s : PageConc} {cpu : ℕ} {b : PageBlock} :
      s.pc cpu = .idle → b ∈ s.live →
      ConcStep s (.callFree cpu b)
        { s with pc := s.goto cpu (.release b.addr), live := s.live.erase b }
  | release {s : PageConc} {cpu ptr : ℕ} {σ' : PageSys} :
      s.pc cpu = .release ptr → pageFree ptr s.sys = some σ' →
      ConcStep s (.release cpu) { s with sys := σ', pc := s.goto cpu .idle }

/-- The state `page_system_init` leaves. -/
def concStart (heap : Area) (mem : ℕ → ℕ) : PageConc :=
  ⟨pageSystemStart heap mem, fun _ => .idle, []⟩

def ConcRun (heap : Area) (mem : ℕ → ℕ) : List (PageConc × PageEvent) → PageConc → Prop :=
  Run (fun s => s = concStart heap mem) ConcStep

/-! ## The invariant -/

/-- The trees represent `T`, which has given out the live blocks and the addresses that are on
their way back. -/
structure ConcInv (heap : Area) (T : ℕ → BuddyTree 12) (s : PageConc) : Prop where
  blocks : PageInv heap T ⟨s.sys, s.live⟩
  releasing : ∀ cpu ptr, s.pc cpu = .release ptr → ∃ B, Given heap T B ∧ B.addr = ptr

theorem concInv_start (heap : Area) (mem : ℕ → ℕ) :
    ConcInv heap (fun _ => .free) (concStart heap mem) where
  blocks := pageInv_start heap mem
  releasing cpu ptr h := by cases h

section Step

variable {heap : Area} {T : ℕ → BuddyTree 12} {s s' : PageConc}

/-- A CPU that does not go into `page_free` leaves the releasing CPUs as they are. -/
theorem ConcInv.releasing_goto (h : ConcInv heap T s) {cpu : ℕ} {p : PagePc}
    (hp : ∀ ptr, p ≠ .release ptr) :
    ∀ c ptr, s.goto cpu p c = .release ptr → ∃ B, Given heap T B ∧ B.addr = ptr := by
  intro c ptr hc
  unfold PageConc.goto at hc
  by_cases he : c = cpu
  · subst he
    rw [Function.update_self] at hc
    exact absurd hc (hp ptr)
  · rw [Function.update_of_ne he] at hc
    exact h.releasing c ptr hc

/-- Every step keeps the invariant. -/
theorem ConcInv.step (h : ConcInv heap T s) {e : PageEvent} (hst : ConcStep s e s') :
    ∃ T', ConcInv heap T' s' := by
  cases hst with
  | callAlloc hpc => exact ⟨T, h.blocks, h.releasing_goto (by simp)⟩
  | giveUp hpc hno => exact ⟨T, h.blocks, h.releasing_goto (by simp)⟩
  | @visitFull cpu size i σ' hpc hsize hi hvisit =>
      have hi' : i < heap.units := by rwa [h.blocks.rep.layout.realPageNum] at hi
      rcases visitUnit_cases h.blocks.rep hi' (P_4K_le_transPageSize size) with
        ⟨-, hfull⟩ | ⟨o, t', σ'', -, hroom, -⟩
      · obtain rfl := (Prod.mk.inj (Option.some.inj (hvisit.symm.trans hfull))).2
        exact ⟨T, h.blocks, h.releasing_goto (by simp)⟩
      · cases hvisit.symm.trans hroom
  | @visitRoom cpu size i answer σ' hpc hsize hi hvisit =>
      have hi' : i < heap.units := by rwa [h.blocks.rep.layout.realPageNum] at hi
      have hc := P_4K_le_transPageSize size
      rcases visitUnit_cases h.blocks.rep hi' hc with ⟨-, hfull⟩ | ⟨o, t', σ'', ha, hroom, hrep⟩
      · cases hvisit.symm.trans hfull
      · rcases Prod.mk.inj (Option.some.inj (hvisit.symm.trans hroom)) with ⟨he, rfl⟩
        obtain rfl := Option.some.inj he
        have hsize' : ¬ 2 ^ 24 < size := fun hbig => hsize ((transPageSize_eq_refuse size).2 hbig)
        refine ⟨_, h.blocks.grant hi' hsize' ha hrep, fun c ptr hc' => ?_⟩
        obtain ⟨B, hB, hptr⟩ := h.releasing_goto (by simp) c ptr hc'
        exact ⟨B, (given_update hi' hc ha B).2 (Or.inr hB), hptr⟩
  | @callFree cpu b hpc hb =>
      refine ⟨T, h.blocks.erase b, fun c ptr hc => ?_⟩
      simp only [PageConc.goto] at hc
      by_cases he : c = cpu
      · subst he
        rw [Function.update_self] at hc
        cases hc
        exact ⟨b.block, h.blocks.given b hb, rfl⟩
      · rw [Function.update_of_ne he] at hc
        exact h.releasing c ptr hc
  | @release cpu ptr σ' hpc hfree =>
      rcases h.releasing cpu ptr hpc with ⟨B, hB, rfl⟩
      obtain rfl := Option.some.inj (hfree.symm.trans (pageFree_given h.blocks.rep hB))
      exact ⟨T, h.blocks, h.releasing_goto (by simp)⟩

end Step

theorem ConcRun.inv {heap : Area} {mem : ℕ → ℕ} {h : List (PageConc × PageEvent)} {s : PageConc}
    (hr : ConcRun heap mem h s) : ∃ T, ConcInv heap T s := by
  refine hr.invariant (I := fun s => ∃ T, ConcInv heap T s) ?_ ?_
  · rintro s rfl
    exact ⟨_, concInv_start heap mem⟩
  · rintro s e t ⟨T, hinv⟩ hst
    exact hinv.step hst

/-! ## What callers rely on -/

/-- The block of `b`, rounded up to its class, is aligned, large enough, inside one unit, and
touches neither a tree nor another live block. -/
structure BlocksSound (s : PageConc) : Prop where
  aligned : ∀ b ∈ s.live, 2 ^ transPageSize b.size ∣ b.addr
  large : ∀ b ∈ s.live, b.size ≤ 2 ^ transPageSize b.size
  inUnit : ∀ b ∈ s.live, ∃ i < s.sys.realPageNum,
    s.sys.beginAllocAddr + i * PHSICS_UNIT ≤ b.addr ∧
      b.addr + 2 ^ transPageSize b.size ≤ s.sys.beginAllocAddr + (i + 1) * PHSICS_UNIT
  offTrees : ∀ b ∈ s.live, ∀ i < s.sys.realPageNum,
    Apart b.addr (2 ^ transPageSize b.size) (s.sys.pagePool i) MAX_PAGE_SIZE
  apart : s.live.Pairwise fun b c =>
    Apart b.addr (2 ^ transPageSize b.size) c.addr (2 ^ transPageSize c.size)

theorem ConcInv.sound {heap : Area} {T : ℕ → BuddyTree 12} {s : PageConc} (h : ConcInv heap T s) :
    BlocksSound s where
  aligned b hb := (h.blocks.given b hb).aligned
  large b hb := le_two_pow_transPageSize fun he =>
    h.blocks.served b hb ((transPageSize_eq_refuse b.size).1 he)
  inUnit b hb := by
    rcases (h.blocks.given b hb).inside with ⟨i, hi, h1, h2⟩
    refine ⟨i, h.blocks.rep.layout.realPageNum ▸ hi, ?_, ?_⟩ <;>
      rw [h.blocks.rep.layout.beginAllocAddr]
    · exact h1
    · rw [Nat.succ_mul, ← Nat.add_assoc]
      exact h2
  offTrees b hb i hi := by
    have hi' : i < heap.units := by rwa [h.blocks.rep.layout.realPageNum] at hi
    rw [h.blocks.rep.layout.pagePool i hi']
    exact Or.inr (Nat.le_trans (heap.treeAddr_lt hi') (h.blocks.given b hb).base_le)
  apart := h.blocks.apart

/-- Whatever the order of the steps, the blocks that `page_alloc` returned are sound. -/
theorem blocksSound_of_run {heap : Area} {mem : ℕ → ℕ} {h : List (PageConc × PageEvent)}
    {s : PageConc} (hr : ConcRun heap mem h s) : BlocksSound s := by
  rcases hr.inv with ⟨T, hinv⟩
  exact hinv.sound

/-- On one unit with room, a visit has an answer. -/
theorem ConcInv.visit_oneUnit {T : ℕ → BuddyTree 12} {s : PageConc} (h : ConcInv oneUnit T s)
    (cpu size : ℕ) (hpc : s.pc cpu = .search size 0) (hsize : ¬ 2 ^ 24 < size)
    (hge : transPageSize size ≤ (T 0).summary P_4K) :
    ∃ s' p, ConcStep s (.visit cpu) s' ∧ s'.pc = s.goto cpu .idle ∧
      s'.live = ⟨p, size⟩ :: s.live ∧
      ∃ o t', (T 0).alloc P_4K (transPageSize size) = some (o, t') ∧
        ConcInv oneUnit (Function.update T 0 t') s' := by
  have h0 : 0 < oneUnit.units := by decide
  have hc := P_4K_le_transPageSize size
  rcases visitUnit_cases h.blocks.rep h0 hc with ⟨hlow, -⟩ | ⟨o, t', σ', ha, hroom, hrep⟩
  · omega
  · refine ⟨_, _, .visitRoom hpc (fun he => hsize ((transPageSize_eq_refuse size).1 he)) ?_ hroom,
      rfl, rfl, o, t', ha, h.blocks.grant h0 hsize ha hrep, fun c ptr hc' => ?_⟩
    · rw [h.blocks.rep.layout.realPageNum]
      exact h0
    · obtain ⟨B, hB, hptr⟩ := h.releasing_goto (by simp) c ptr hc'
      exact ⟨B, (given_update h0 hc ha B).2 (Or.inr hB), hptr⟩

/-- Two CPUs that ask for a page at the same time get disjoint pages. -/
theorem blocksSound_two_cpus : ∃ h s, ConcRun oneUnit (fun _ => 0) h s ∧ s.live.length = 2 ∧
    BlocksSound s := by
  let s₀ := concStart oneUnit fun _ => 0
  let s₁ : PageConc := { s₀ with pc := s₀.goto 0 (.search 4096 0) }
  let s₂ : PageConc := { s₁ with pc := s₁.goto 1 (.search 4096 0) }
  have st₁ : ConcStep s₀ (.callAlloc 0 4096) s₁ := .callAlloc rfl
  have st₂ : ConcStep s₁ (.callAlloc 1 4096) s₂ := .callAlloc rfl
  have hinv₁ : ConcInv oneUnit (fun _ => .free) s₁ :=
    ⟨(concInv_start _ _).blocks, (concInv_start _ _).releasing_goto (by simp)⟩
  have hinv₂ : ConcInv oneUnit (fun _ => .free) s₂ :=
    ⟨hinv₁.blocks, hinv₁.releasing_goto (by simp)⟩
  obtain ⟨s₃, p, st₃, hpc₃, hlive₃, o, t', ha, hinv₃⟩ :=
    hinv₂.visit_oneUnit 0 4096 rfl (by decide) (by decide)
  obtain rfl : firstPage 12 = t' :=
    (Prod.mk.inj (Option.some.inj (alloc_firstPage.symm.trans ha))).2
  obtain ⟨s₄, q, st₄, -, hlive₄, -⟩ := hinv₃.visit_oneUnit 1 4096
    (by rw [hpc₃]; rfl) (by decide) (by rw [Function.update_self]; decide)
  have hr : ConcRun oneUnit (fun _ => 0) _ s₄ :=
    Run.snoc (Run.snoc (Run.snoc (Run.snoc (Run.start rfl) st₁) st₂) st₃) st₄
  exact ⟨_, s₄, hr, by rw [hlive₄, hlive₃]; rfl, blocksSound_of_run hr⟩

end OsLab
