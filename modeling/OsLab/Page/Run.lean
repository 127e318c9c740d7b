import OsLab.Page.Alloc
import OsLab.Lib.Run

/-! # Runs of the page allocator

The transition system of a page allocator that serves one call after another:
`page_system_init`, then any sequence of `page_alloc` and of `page_free` on live
blocks. The live blocks are ghost state.

`PageInv heap T s` is the invariant of all its runs: the trees represent `T`,
and every live block is one that `T` has given out.
-/

namespace OsLab

open Buddy Trace

/-- What `page_alloc(size)` returned. -/
structure PageBlock where
  addr : ℕ
  size : ℕ
deriving DecidableEq, Repr

/-- The bytes that belong to it: its size is rounded up to its class. -/
def PageBlock.block (b : PageBlock) : Block := ⟨b.addr, transPageSize b.size⟩

/-- The allocator and the blocks that were returned and not freed since. -/
structure PageState where
  sys : PageSys
  live : List PageBlock

/-- The calls. -/
inductive PageCall
  | alloc (size : ℕ)
  | free (b : PageBlock)

/-- The answer of `page_alloc(size)` as a list of new live blocks. -/
def newBlocks (size : ℕ) (answer : Option ℕ) : List PageBlock :=
  answer.toList.map fun p => ⟨p, size⟩

/-- One call, run to completion. -/
inductive PageStep : PageState → PageCall → PageState → Prop
  | alloc {s : PageState} {size : ℕ} {answer : Option ℕ} {σ' : PageSys} :
      pageAlloc size s.sys = some (answer, σ') →
      PageStep s (.alloc size) ⟨σ', newBlocks size answer ++ s.live⟩
  | free {s : PageState} {b : PageBlock} {σ' : PageSys} :
      b ∈ s.live → pageFree b.addr s.sys = some σ' →
      PageStep s (.free b) ⟨σ', s.live.erase b⟩

/-- The state `page_system_init` leaves. -/
def pageStart (heap : Area) (mem : ℕ → ℕ) : PageState := ⟨pageSystemStart heap mem, []⟩

/-- Runs from that state. -/
def PageRun (heap : Area) (mem : ℕ → ℕ) : List (PageState × PageCall) → PageState → Prop :=
  Run (fun s => s = pageStart heap mem) PageStep

/-! ## The invariant -/

/-- The trees represent `T`, and the live blocks are blocks of `T` apart from one another. -/
structure PageInv (heap : Area) (T : ℕ → BuddyTree 12) (s : PageState) : Prop where
  rep : s.sys.Represents heap T
  given : ∀ b ∈ s.live, Given heap T b.block
  served : ∀ b ∈ s.live, ¬ 2 ^ 24 < b.size
  apart : s.live.Pairwise fun b c => b.block.Apart c.block

theorem pageInv_start (heap : Area) (mem : ℕ → ℕ) :
    PageInv heap (fun _ => .free) (pageStart heap mem) where
  rep := represents_start heap mem
  given := by simp [pageStart]
  served := by simp [pageStart]
  apart := List.Pairwise.nil

section Step

variable {heap : Area} {T : ℕ → BuddyTree 12} {s s' : PageState}

/-- Handing out a new block of unit `j` keeps the invariant. -/
theorem PageInv.grant (h : PageInv heap T s) {size j o : ℕ} {t' : BuddyTree 12} {σ' : PageSys}
    (hj : j < heap.units) (hsize : ¬ 2 ^ 24 < size)
    (ha : (T j).alloc P_4K (transPageSize size) = some (o, t'))
    (hrep : σ'.Represents heap (Function.update T j t')) :
    PageInv heap (Function.update T j t')
      ⟨σ', newBlocks size (some (heap.unitAddr j + o)) ++ s.live⟩ := by
  have hc := (transPageSize_bounds hsize).1
  refine ⟨hrep, ?_, ?_, ?_⟩
  · rintro b (_ | ⟨_, hb⟩)
    · exact (given_update hj hc ha _).2 (Or.inl rfl)
    · exact (given_update hj hc ha _).2 (Or.inr (h.given b hb))
  · rintro b (_ | ⟨_, hb⟩)
    · exact hsize
    · exact h.served b hb
  · exact List.pairwise_cons.2
      ⟨fun b hb => (apart_of_alloc hj hc ha (h.given b hb)).symm, h.apart⟩

/-- So does forgetting a live block. -/
theorem PageInv.erase (h : PageInv heap T s) (b : PageBlock) :
    PageInv heap T ⟨s.sys, s.live.erase b⟩ where
  rep := h.rep
  given c hc := h.given c (List.mem_of_mem_erase hc)
  served c hc := h.served c (List.mem_of_mem_erase hc)
  apart := h.apart.sublist List.erase_sublist

/-- Everything `page_alloc` can do: answer `NULL` and change nothing, when no unit can serve the
request, or hand out a new block of one unit. -/
theorem PageInv.alloc_cases (h : PageInv heap T s) {size : ℕ}
    (hst : PageStep s (.alloc size) s') :
    (s' = s ∧ pageAlloc size s.sys = some (none, s.sys) ∧
      (2 ^ 24 < size ∨ ∀ i < heap.units, (T i).summary P_4K < transPageSize size)) ∨
    (¬ 2 ^ 24 < size ∧ ∃ j < heap.units, transPageSize size ≤ (T j).summary P_4K ∧ ∃ o t',
      (T j).alloc P_4K (transPageSize size) = some (o, t') ∧
      (∃ σ', pageAlloc size s.sys = some (some (heap.unitAddr j + o), σ')) ∧
      s'.live = ⟨heap.unitAddr j + o, size⟩ :: s.live ∧
      PageInv heap (Function.update T j t') s') := by
  cases hst with
  | @alloc _ _ σ' heq =>
      rcases pageAlloc_cases h.rep size with
        ⟨hno, hnone⟩ | ⟨⟨hsize, -⟩, j, hj, hge, o, t', σ'', ha, hsome, hrep, -⟩
      · rcases Prod.mk.inj (Option.some.inj (heq.symm.trans hnone)) with ⟨rfl, rfl⟩
        exact Or.inl ⟨rfl, hnone, hno⟩
      · rcases Prod.mk.inj (Option.some.inj (heq.symm.trans hsome)) with ⟨rfl, rfl⟩
        exact Or.inr ⟨hsize, j, hj, hge, o, t', ha, ⟨_, hsome⟩, rfl, h.grant hj hsize ha hrep⟩

/-- Everything `page_free` does on a live block: nothing. -/
theorem PageInv.free_cases (h : PageInv heap T s) {b : PageBlock}
    (hst : PageStep s (.free b) s') :
    b ∈ s.live ∧ s' = ⟨s.sys, s.live.erase b⟩ ∧ PageInv heap T s' := by
  cases hst with
  | free hb heq =>
      obtain rfl := Option.some.inj (heq.symm.trans (pageFree_given h.rep (h.given b hb)))
      exact ⟨hb, rfl, h.erase b⟩

end Step

/-! ## A heap of one unit

The smallest heap with a unit in it: `[16 MiB, 48 MiB)`. -/

/-- A heap with exactly one unit, at 32 MiB. -/
def oneUnit : Area where
  start := 2 ^ 24
  stop := 3 * 2 ^ 24
  start_pos := by decide
  start_le := by decide
  stop_le := by decide

theorem units_oneUnit : oneUnit.units = 1 := by decide

/-- A unit from which only its first page was given out. -/
def firstPage : (h : ℕ) → BuddyTree h
  | 0 => .used
  | h + 1 => .split false (firstPage h) .free

theorem alloc_firstPage : (.free : BuddyTree 12).alloc P_4K (transPageSize 4096) = some (0, firstPage 12) :=
  rfl

/-- On a heap of one unit a call that the tree can serve is a step. -/
theorem PageInv.alloc_oneUnit {T : ℕ → BuddyTree 12} {s : PageState} (h : PageInv oneUnit T s)
    (size : ℕ) {o : ℕ} {t' : BuddyTree 12} (hsize : ¬ 2 ^ 24 < size)
    (ha : (T 0).alloc P_4K (transPageSize size) = some (o, t'))
    (hge : transPageSize size ≤ (T 0).summary P_4K) :
    ∃ s', PageStep s (.alloc size) s' ∧
      s'.live = ⟨oneUnit.unitAddr 0 + o, size⟩ :: s.live ∧
      PageInv oneUnit (Function.update T 0 t') s' := by
  have h0 : 0 < oneUnit.units := by decide
  rcases pageAlloc_some h.rep hsize h0 hge with ⟨j, hj, -, o', t'', σ', -, hsome, -⟩
  have hst := PageStep.alloc hsome
  refine ⟨_, hst, ?_⟩
  rcases h.alloc_cases hst with ⟨heq, -⟩ | ⟨-, k, hk, -, o₁, t₁, ha₁, -, hlive, hinv⟩
  · have hlen := congrArg (fun s : PageState => s.live.length) heq
    simp [newBlocks] at hlen
  · have hk0 : k = 0 := by
      rw [units_oneUnit] at hk
      omega
    subst hk0
    rcases Prod.mk.inj (Option.some.inj (ha₁.symm.trans ha)) with ⟨rfl, rfl⟩
    exact ⟨hlive, hinv⟩

/-- A run of one request, for a page. -/
theorem exists_run_firstPage : ∃ h s, PageRun oneUnit (fun _ => 0) h s ∧
    h = [(pageStart oneUnit fun _ => 0, .alloc 4096)] ∧
    s.live = [⟨oneUnit.unitAddr 0 + 0, 4096⟩] ∧
    PageInv oneUnit (Function.update (fun _ => .free) 0 (firstPage 12)) s := by
  obtain ⟨s, hst, hlive, hinv⟩ := (pageInv_start oneUnit fun _ => 0).alloc_oneUnit
    4096 (by decide) alloc_firstPage (by decide)
  exact ⟨_, s, Run.snoc (Run.start rfl) hst, rfl, hlive, hinv⟩

end OsLab
