import Mathlib.Algebra.Order.Group.Nat
import Mathlib.Data.List.Nodup
import Mathlib.Data.List.Pairwise
import Mathlib.Data.List.Perm.Basic
import Mathlib.Tactic.Ring
import Mathlib.Tactic.Common

/-! # Buddy trees

A region of `2^(m+h)` bytes is managed as a binary tree of height `h`: a node is
wholly free, given out as a whole, or split into two halves; the leaves have
class `m`. A split node may also be *sealed*, which withdraws everything below
it from allocation. The height is an index of the type, so a tree that is
deeper than its region cannot be written down.

* `summary` is the class of the largest block an allocation can still get;
* `blocks` are the blocks given out, at their addresses;
* `alloc c` goes down first-fit (left before right) by the summaries.

Allocation adds exactly one block (`blocks_alloc`), it succeeds exactly as far
as the summary says (`alloc_isSome`), and the summary is exact about the
free blocks that no sealed node hides (`le_summary_iff`). While nothing is given
back, the right half of a node has more to offer than the left one or nothing at
all (`LeftFirst`), so a node whose summary is `c` has one open block of class `c`
left and a node with a larger one has two of them (`LeftFirst.summary_eq_iff`).
-/

namespace Buddy

/-- The ranges `[a, a+n)` and `[b, b+k)` do not overlap. -/
def Apart (a n b k : ℕ) : Prop := a + n ≤ b ∨ b + k ≤ a

theorem Apart.symm {a n b k : ℕ} (h : Apart a n b k) : Apart b k a n := Or.symm h

/-- A block of `2^cls` bytes. -/
structure Block where
  addr : ℕ
  cls : ℕ
deriving DecidableEq, Repr

/-- Size in bytes. -/
def Block.size (B : Block) : ℕ := 2 ^ B.cls

/-- Two blocks do not overlap. -/
def Block.Apart (B C : Block) : Prop := Buddy.Apart B.addr B.size C.addr C.size

theorem Block.Apart.symm {B C : Block} (h : B.Apart C) : C.Apart B := Or.symm h

instance : Std.Symm Block.Apart := ⟨fun _ _ h => h.symm⟩

/-- `B` lies inside `C`. -/
def Block.Inside (B C : Block) : Prop := C.addr ≤ B.addr ∧ B.addr + B.size ≤ C.addr + C.size

instance (a n b k : ℕ) : Decidable (Apart a n b k) := inferInstanceAs (Decidable (_ ∨ _))

instance (B C : Block) : Decidable (B.Apart C) := inferInstanceAs (Decidable (Buddy.Apart _ _ _ _))

instance (B C : Block) : Decidable (B.Inside C) := inferInstanceAs (Decidable (_ ∧ _))

theorem Block.size_pos (B : Block) : 0 < B.size := Nat.two_pow_pos _

theorem Block.Apart.addr_ne {B C : Block} (h : B.Apart C) : B.addr ≠ C.addr := by
  have hB := B.size_pos
  have hC := C.size_pos
  unfold Block.Apart Buddy.Apart at h
  omega

theorem Block.Apart.ne {B C : Block} (h : B.Apart C) : B ≠ C := fun he =>
  h.addr_ne (congrArg Block.addr he)

theorem Block.Inside.trans {B C D : Block} (h : B.Inside C) (h' : C.Inside D) : B.Inside D :=
  ⟨Nat.le_trans h'.1 h.1, Nat.le_trans h.2 h'.2⟩

/-- What lies inside one of two disjoint blocks is disjoint from the other. -/
theorem Block.Inside.apart {B C D : Block} (h : B.Inside C) (hCD : C.Apart D) : B.Apart D := by
  unfold Block.Inside at h
  unfold Block.Apart Buddy.Apart at hCD ⊢
  omega

theorem Block.Apart.not_inside {B C : Block} (h : B.Apart C) : ¬ B.Inside C := by
  have hB := B.size_pos
  unfold Block.Apart Buddy.Apart at h
  unfold Block.Inside
  omega

/-! The two halves of a region of class `k + 1`. -/

theorem Block.left_inside (b k : ℕ) : (⟨b, k⟩ : Block).Inside ⟨b, k + 1⟩ := by
  constructor
  · exact Nat.le_refl b
  · exact Nat.add_le_add_left (Nat.pow_le_pow_right (by decide) (Nat.le_succ k)) b

theorem Block.right_inside (b k : ℕ) : (⟨b + 2 ^ k, k⟩ : Block).Inside ⟨b, k + 1⟩ := by
  constructor
  · exact Nat.le_add_right b _
  · have hpow : 2 ^ (k + 1) = 2 ^ k + 2 ^ k := by ring
    simp only [Block.size, hpow, Nat.add_assoc, Nat.le_refl]

theorem Block.left_apart_right (b k : ℕ) : (⟨b, k⟩ : Block).Apart ⟨b + 2 ^ k, k⟩ :=
  Or.inl (Nat.le_refl _)

/-- What lies in one half is disjoint from what lies in the other. -/
theorem Block.apart_of_halves {b k : ℕ} {B C : Block} (hB : B.Inside ⟨b, k⟩)
    (hC : C.Inside ⟨b + 2 ^ k, k⟩) : B.Apart C :=
  hB.apart (hC.apart (Block.left_apart_right b k).symm).symm

/-- Aligned blocks are nested or disjoint. -/
theorem Block.inside_or_apart {B C : Block} (hB : B.size ∣ B.addr) (hC : C.size ∣ C.addr)
    (hle : B.cls ≤ C.cls) : B.Inside C ∨ B.Apart C := by
  rcases Nat.pow_dvd_pow 2 hle with ⟨k, hk⟩
  rcases hB with ⟨p, hp⟩
  rcases hC with ⟨q, hq⟩
  have hsB := B.size_pos
  have hsz : C.size = B.size * k := hk
  have hq' : C.addr = B.size * (k * q) := by rw [hq, hsz]; ring
  have hend : C.addr + C.size = B.size * (k * q + k) := by rw [hq', hsz]; ring
  have hBend : B.addr + B.size = B.size * (p + 1) := by rw [hp]; ring
  rcases Nat.lt_or_ge p (k * q) with hlt | hge
  · -- wholly before
    right; left
    rw [hBend, hq']
    exact Nat.mul_le_mul_left _ hlt
  · rcases Nat.lt_or_ge p (k * q + k) with hlt' | hge'
    · left
      refine ⟨?_, ?_⟩
      · rw [hq', hp]; exact Nat.mul_le_mul_left _ hge
      · rw [hBend, hend]; exact Nat.mul_le_mul_left _ hlt'
    · -- wholly after
      right; right
      rw [hend, hp]
      exact Nat.mul_le_mul_left _ hge'

/-- A smaller aligned block of a region lies in one of its halves. -/
theorem Block.inside_half {b k : ℕ} {B : Block} (hB : B.size ∣ B.addr) (hb : 2 ^ (k + 1) ∣ b)
    (hin : B.Inside ⟨b, k + 1⟩) (hle : B.cls ≤ k) :
    B.Inside ⟨b, k⟩ ∨ B.Inside ⟨b + 2 ^ k, k⟩ := by
  have hk : 2 ^ k ∣ b := dvd_trans (Nat.pow_dvd_pow 2 (Nat.le_succ k)) hb
  refine (Block.inside_or_apart (C := ⟨b, k⟩) hB hk hle).imp_right fun hap => ?_
  have hpow : 2 ^ (k + 1) = 2 ^ k + 2 ^ k := by ring
  have hpos := B.size_pos
  simp only [Block.Inside, Block.Apart, Buddy.Apart, Block.size, hpow] at hap hin hpos ⊢
  omega

theorem Block.Inside.cls_le {B C : Block} (h : B.Inside C) : B.cls ≤ C.cls := by
  simp only [Block.Inside, Block.size] at h
  exact (Nat.pow_le_pow_iff_right Nat.one_lt_two).1 (by omega)

/-- A buddy tree of height `h`. -/
inductive BuddyTree : ℕ → Type
  /-- Nothing below is given out. -/
  | free {h : ℕ} : BuddyTree h
  /-- Given out as a whole. -/
  | used {h : ℕ} : BuddyTree h
  /-- Split into halves; a sealed node takes part in no further allocation. -/
  | split {h : ℕ} (isSealed : Bool) (l r : BuddyTree h) : BuddyTree (h + 1)

namespace BuddyTree

variable (m : ℕ)

/-- The class of the largest block that can still be allocated (0 or 1: none). -/
def summary : {h : ℕ} → BuddyTree h → ℕ
  | h, .free => m + h
  | _, .used => 0
  | _, .split true _ _ => 1
  | _, .split false l r => max l.summary r.summary

/-- The blocks given out by a tree whose region starts at `b`. -/
def blocks : {h : ℕ} → BuddyTree h → ℕ → List Block
  | _, .free, _ => []
  | h, .used, b => [⟨b, m + h⟩]
  | h + 1, .split _ l r, b => l.blocks b ++ r.blocks (b + 2 ^ (m + h))

/-- The regions of the sealed nodes of a tree whose region starts at `b`. -/
def sealedBlocks : {h : ℕ} → BuddyTree h → ℕ → List Block
  | _, .free, _ => []
  | _, .used, _ => []
  | h + 1, .split s l r, b =>
      (if s then [⟨b, m + (h + 1)⟩] else []) ++
        (l.sealedBlocks b ++ r.sealedBlocks (b + 2 ^ (m + h)))

/-- First-fit allocation of a block of class `c`: its offset in the region and
the tree afterwards. A node whose summary was exactly `c` is sealed. -/
def alloc (c : ℕ) : {h : ℕ} → BuddyTree h → Option (ℕ × BuddyTree h)
  | h, .free =>
      if c = m + h then some (0, .used)
      else match h with
        | 0 => none
        | k + 1 => (alloc c (h := k) .free).map fun p => (p.1, .split false p.2 .free)
  | _, .used => none
  | h + 1, .split s l r =>
      if m + (h + 1) ≤ c then none
      else if c ≤ l.summary m then
        (alloc c l).map fun p =>
          (p.1, .split (decide ((split s l r).summary m = c)) p.2 r)
      else
        (alloc c r).map fun p =>
          (2 ^ (m + h) + p.1, .split (decide ((split s l r).summary m = c)) l p.2)

/-- The two halves of a node that is not given out as a whole. -/
def children : {h : ℕ} → BuddyTree (h + 1) → Option (BuddyTree h × BuddyTree h)
  | _, .free => some (.free, .free)
  | _, .used => none
  | _, .split _ l r => some (l, r)

/-- Some block below is given out. -/
def Occupied : {h : ℕ} → BuddyTree h → Prop
  | _, .free => False
  | _, .used => True
  | _, .split _ l r => l.Occupied ∨ r.Occupied

/-- No split node is empty: free halves are always merged. -/
def Proper : {h : ℕ} → BuddyTree h → Prop
  | _, .free => True
  | _, .used => True
  | _, .split _ l r => (l.Occupied ∨ r.Occupied) ∧ l.Proper ∧ r.Proper

variable {m : ℕ}

/-! ## The blocks of a tree -/

theorem summary_le {h : ℕ} (t : BuddyTree h) : t.summary m ≤ m + h := by
  induction t with
  | free => simp [summary]
  | used => simp [summary]
  | split s l r ihl ihr =>
      cases s with
      | true => simp only [summary]; omega
      | false => simp only [summary]; omega

/-- Only a wholly free tree has its full class to offer. -/
theorem summary_eq_iff {h : ℕ} (hm : 1 < m) {t : BuddyTree h} : t.summary m = m + h ↔ t = .free := by
  constructor
  · intro hs
    cases t with
    | free => rfl
    | used => simp only [summary] at hs; omega
    | split s l r =>
        have hl := summary_le (m := m) l
        have hr := summary_le (m := m) r
        cases s <;> simp only [summary] at hs <;> omega
  · rintro rfl
    rfl

/-- Every block given out lies in the region of its tree. -/
theorem inside_of_mem_blocks {h : ℕ} {t : BuddyTree h} {b : ℕ} {B : Block} (hB : B ∈ t.blocks m b) :
    m ≤ B.cls ∧ B.Inside ⟨b, m + h⟩ := by
  induction t generalizing b with
  | free => simp [blocks] at hB
  | used =>
      simp only [blocks, List.mem_singleton] at hB
      subst hB
      exact ⟨Nat.le_add_right _ _, Nat.le_refl _, Nat.le_refl _⟩
  | @split k s l r ihl ihr =>
      rcases List.mem_append.1 hB with hl | hr
      · rcases ihl hl with ⟨hcls, hin⟩
        exact ⟨hcls, hin.trans (Block.left_inside b (m + k))⟩
      · rcases ihr hr with ⟨hcls, hin⟩
        exact ⟨hcls, hin.trans (Block.right_inside b (m + k))⟩

/-- The blocks given out are aligned to their size when the region is. -/
theorem aligned_of_mem_blocks {h : ℕ} {t : BuddyTree h} {b : ℕ} {B : Block} (hb : 2 ^ (m + h) ∣ b)
    (hB : B ∈ t.blocks m b) : B.size ∣ B.addr := by
  induction t generalizing b with
  | free => simp [blocks] at hB
  | used =>
      simp only [blocks, List.mem_singleton] at hB
      subst hB
      exact hb
  | @split k s l r ihl ihr =>
      have hk : 2 ^ (m + k) ∣ b := dvd_trans (Nat.pow_dvd_pow 2 (by omega)) hb
      rcases List.mem_append.1 hB with hl | hr
      · exact ihl hk hl
      · exact ihr (Nat.dvd_add hk dvd_rfl) hr

/-- No two blocks given out overlap. -/
theorem pairwise_blocks {h : ℕ} (t : BuddyTree h) (b : ℕ) : (t.blocks m b).Pairwise Block.Apart := by
  induction t generalizing b with
  | free => simp [blocks]
  | used => simp [blocks]
  | @split k s l r ihl ihr =>
      refine List.pairwise_append.2 ⟨ihl b, ihr _, ?_⟩
      intro B hB C hC
      exact Block.apart_of_halves (inside_of_mem_blocks hB).2 (inside_of_mem_blocks hC).2

theorem Occupied.exists_block {h : ℕ} {t : BuddyTree h} (ht : t.Occupied) (b : ℕ) :
    ∃ B, B ∈ t.blocks m b := by
  induction t generalizing b with
  | free => exact ht.elim
  | used => exact ⟨_, List.mem_singleton.2 rfl⟩
  | @split k s l r ihl ihr =>
      rcases ht with hl | hr
      · rcases ihl hl b with ⟨B, hB⟩
        exact ⟨B, List.mem_append_left _ hB⟩
      · rcases ihr hr (b + 2 ^ (m + k)) with ⟨B, hB⟩
        exact ⟨B, List.mem_append_right _ hB⟩

/-! ## What an allocation does -/

/-- Above the class asked for, allocation continues in one of the halves; this
is the same for a free node and a split one. -/
theorem alloc_of_children {h c : ℕ} {t : BuddyTree (h + 1)} {l r : BuddyTree h} (hc : c < m + (h + 1))
    (ht : t.children = some (l, r)) :
    t.alloc m c =
      if c ≤ l.summary m then
        (l.alloc m c).map fun p => (p.1, .split (decide (t.summary m = c)) p.2 r)
      else
        (r.alloc m c).map fun p =>
          (2 ^ (m + h) + p.1, .split (decide (t.summary m = c)) l p.2) := by
  cases t with
  | used => simp [children] at ht
  | free =>
      simp only [children, Option.some.injEq, Prod.mk.injEq] at ht
      rcases ht with ⟨rfl, rfl⟩
      have hne : c ≠ m + (h + 1) := by omega
      have hle : c ≤ m + h := by omega
      have hne' : ¬ m + (h + 1) = c := by omega
      rw [alloc]
      simp [summary, hne, hle, hne']
  | split s l' r' =>
      simp only [children, Option.some.injEq, Prod.mk.injEq] at ht
      rcases ht with ⟨rfl, rfl⟩
      rw [alloc, if_neg (by omega)]

theorem blocks_of_children {h : ℕ} {t : BuddyTree (h + 1)} {l r : BuddyTree h}
    (ht : t.children = some (l, r)) (b : ℕ) :
    t.blocks m b = l.blocks m b ++ r.blocks m (b + 2 ^ (m + h)) := by
  cases t with
  | used => simp [children] at ht
  | free =>
      simp only [children, Option.some.injEq, Prod.mk.injEq] at ht
      rcases ht with ⟨rfl, rfl⟩
      rfl
  | split s l' r' =>
      simp only [children, Option.some.injEq, Prod.mk.injEq] at ht
      rcases ht with ⟨rfl, rfl⟩
      rfl

/-- The summary of a node that is neither used nor sealed does not exceed both halves' by more
than the merge of two free halves. -/
theorem le_summary_children {h c : ℕ} {t : BuddyTree (h + 1)} {l r : BuddyTree h}
    (ht : t.children = some (l, r)) (hc1 : 1 < c) (hc : c < m + (h + 1))
    (hs : c ≤ t.summary m) : c ≤ l.summary m ∨ c ≤ r.summary m := by
  cases t with
  | used => simp [children] at ht
  | free =>
      simp only [children, Option.some.injEq, Prod.mk.injEq] at ht
      rcases ht with ⟨rfl, rfl⟩
      left
      simp only [summary]
      omega
  | split s l' r' =>
      simp only [children, Option.some.injEq, Prod.mk.injEq] at ht
      rcases ht with ⟨rfl, rfl⟩
      cases s with
      | true => simp only [summary] at hs; omega
      | false =>
          simp only [summary] at hs
          omega

/-- A node at the class asked for is given out exactly when it is free. -/
theorem alloc_at_class {h c : ℕ} {t : BuddyTree h} {p : ℕ × BuddyTree h} (hc : c = m + h)
    (ha : t.alloc m c = some p) : t = .free ∧ p = (0, .used) := by
  cases t with
  | free =>
      unfold alloc at ha
      rw [if_pos hc] at ha
      exact ⟨rfl, (Option.some.inj ha).symm⟩
  | used => simp [alloc] at ha
  | split s l r =>
      rw [alloc, if_pos (by omega)] at ha
      cases ha

theorem le_of_alloc {h c : ℕ} {t : BuddyTree h} {p : ℕ × BuddyTree h} (ha : t.alloc m c = some p) :
    c ≤ m + h := by
  induction h with
  | zero =>
      cases t with
      | free =>
          by_contra hlt
          have hne : c ≠ m := by omega
          simp [alloc, hne] at ha
      | used => simp [alloc] at ha
  | succ k ih =>
      by_contra hlt
      cases t with
      | free =>
          simp only [alloc] at ha
          rw [if_neg (by omega)] at ha
          rcases Option.map_eq_some_iff.1 ha with ⟨q, hq, -⟩
          have := ih hq
          omega
      | used => simp [alloc] at ha
      | split s l r =>
          simp only [alloc] at ha
          rw [if_pos (by omega)] at ha
          cases ha

/-- Not above the class asked for, a successful allocation takes the whole free tree. -/
theorem alloc_top {h c o : ℕ} {t t' : BuddyTree h} (hc : m + h ≤ c)
    (ha : t.alloc m c = some (o, t')) : c = m + h ∧ t = .free ∧ o = 0 ∧ t' = .used := by
  have heq : c = m + h := Nat.le_antisymm (le_of_alloc ha) hc
  rcases alloc_at_class heq ha with ⟨ht, hp⟩
  rcases Prod.mk.inj hp with ⟨ho, ht'⟩
  exact ⟨heq, ht, ho, ht'⟩

/-- Above the class asked for, a successful allocation is one in the left half or one in the
right half. -/
theorem alloc_succ_cases {h c : ℕ} {t : BuddyTree (h + 1)} {o : ℕ} {t' : BuddyTree (h + 1)}
    (hc : c < m + (h + 1)) (ha : t.alloc m c = some (o, t')) :
    ∃ l r, t.children = some (l, r) ∧
      ((c ≤ l.summary m ∧ ∃ l', l.alloc m c = some (o, l') ∧
          t' = .split (decide (t.summary m = c)) l' r) ∨
       (¬ c ≤ l.summary m ∧ ∃ o' r', r.alloc m c = some (o', r') ∧ o = 2 ^ (m + h) + o' ∧
          t' = .split (decide (t.summary m = c)) l r')) := by
  obtain ⟨⟨l, r⟩, hlr⟩ : ∃ p, t.children = some p := by
    cases t with
    | used => simp [alloc] at ha
    | free => exact ⟨_, rfl⟩
    | split s l r => exact ⟨_, rfl⟩
  refine ⟨l, r, hlr, ?_⟩
  rw [alloc_of_children hc hlr] at ha
  split at ha
  · rename_i hl
    rcases Option.map_eq_some_iff.1 ha with ⟨⟨o', l'⟩, hq, he⟩
    simp only [Prod.mk.injEq] at he
    exact Or.inl ⟨hl, l', by rw [hq, he.1], he.2.symm⟩
  · rename_i hl
    rcases Option.map_eq_some_iff.1 ha with ⟨⟨o', r'⟩, hq, he⟩
    simp only [Prod.mk.injEq] at he
    exact Or.inr ⟨hl, o', r', hq, he.1.symm, he.2.symm⟩

/-- Allocation adds one block, at the offset it answers, and leaves the others as they are. -/
theorem blocks_alloc {h c : ℕ} {t t' : BuddyTree h} {o : ℕ} (hmc : m ≤ c)
    (ha : t.alloc m c = some (o, t')) (b : ℕ) :
    (t'.blocks m b).Perm (⟨b + o, c⟩ :: t.blocks m b) := by
  induction h generalizing o b with
  | zero =>
      obtain ⟨rfl, rfl, rfl, rfl⟩ := alloc_top hmc ha
      simp [blocks]
  | succ k ih =>
      rcases Nat.lt_or_ge c (m + (k + 1)) with hc | hc
      · obtain ⟨l, r, hlr, ⟨-, l', hl', rfl⟩ | ⟨-, o', r', hr', rfl, rfl⟩⟩ :=
          alloc_succ_cases hc ha
        · rw [blocks_of_children hlr]
          exact ((ih hl' b).append_right _)
        · rw [blocks_of_children hlr]
          have hp := (ih hr' (b + 2 ^ (m + k))).append_left (l.blocks m b)
          rw [Nat.add_assoc] at hp
          exact hp.trans List.perm_middle
      · obtain ⟨rfl, rfl, rfl, rfl⟩ := alloc_top hc ha
        simp [blocks]

theorem inside_alloc {h c o : ℕ} {t t' : BuddyTree h} (hmc : m ≤ c)
    (ha : t.alloc m c = some (o, t')) (b : ℕ) : (⟨b + o, c⟩ : Block).Inside ⟨b, m + h⟩ :=
  (inside_of_mem_blocks ((blocks_alloc hmc ha b).mem_iff.2 List.mem_cons_self)).2

/-- The summary is never too large: what it promises can be allocated. -/
theorem alloc_isSome {h c : ℕ} {t : BuddyTree h} (hmc : m ≤ c) (hc1 : 1 < c)
    (hs : c ≤ t.summary m) : ∃ o t', t.alloc m c = some (o, t') := by
  have hle : t.summary m ≤ m + h := summary_le t
  induction h with
  | zero =>
      cases t with
      | free =>
          simp only [summary] at hs
          exact ⟨0, .used, by rw [alloc, if_pos (by omega)]⟩
      | used => simp only [summary] at hs; omega
  | succ k ih =>
      rcases Nat.lt_or_ge c (m + (k + 1)) with hc | hc
      · obtain ⟨⟨l, r⟩, hlr⟩ : ∃ p, t.children = some p := by
          cases t with
          | used => simp only [summary] at hs; omega
          | free => exact ⟨_, rfl⟩
          | split s l r => exact ⟨_, rfl⟩
        rw [alloc_of_children hc hlr]
        by_cases hl : c ≤ l.summary m
        · rcases ih hl (summary_le l) with ⟨o, l', ho⟩
          exact ⟨o, _, by rw [if_pos hl, ho]; rfl⟩
        · have hr := (le_summary_children hlr hc1 hc hs).resolve_left hl
          rcases ih hr (summary_le r) with ⟨o, r', ho⟩
          exact ⟨_, _, by rw [if_neg hl, ho]; rfl⟩
      · have hc' : c = m + (k + 1) := by omega
        cases t with
        | free => exact ⟨0, .used, by rw [alloc, if_pos hc']⟩
        | used => simp only [summary] at hs; omega
        | split s l r =>
            exfalso
            have h1 : l.summary m ≤ m + k := summary_le l
            have h2 : r.summary m ≤ m + k := summary_le r
            cases s with
            | true => simp only [summary] at hs; omega
            | false => simp only [summary] at hs; omega

/-! ## What the summary says about the free blocks -/

theorem occupied_alloc {h c : ℕ} {t t' : BuddyTree h} {o : ℕ} (hmc : m ≤ c)
    (ha : t.alloc m c = some (o, t')) : t'.Occupied := by
  induction h generalizing o with
  | zero =>
      obtain ⟨-, -, -, rfl⟩ := alloc_top hmc ha
      trivial
  | succ k ih =>
      rcases Nat.lt_or_ge c (m + (k + 1)) with hc | hc
      · rcases alloc_succ_cases hc ha with ⟨l, r, -, ⟨-, l', hl', rfl⟩ | ⟨-, o', r', hr', -, rfl⟩⟩
        · exact Or.inl (ih hl')
        · exact Or.inr (ih hr')
      · obtain ⟨-, -, -, rfl⟩ := alloc_top hc ha
        trivial

theorem Proper.children {h : ℕ} {t : BuddyTree (h + 1)} {l r : BuddyTree h} (ht : t.Proper)
    (hlr : t.children = some (l, r)) : l.Proper ∧ r.Proper := by
  cases t with
  | used => simp [BuddyTree.children] at hlr
  | free =>
      simp only [BuddyTree.children, Option.some.injEq, Prod.mk.injEq] at hlr
      rcases hlr with ⟨rfl, rfl⟩
      exact ⟨trivial, trivial⟩
  | split s l' r' =>
      simp only [BuddyTree.children, Option.some.injEq, Prod.mk.injEq] at hlr
      rcases hlr with ⟨rfl, rfl⟩
      exact ht.2

/-- Allocation keeps trees proper. -/
theorem Proper.alloc {h c : ℕ} {t t' : BuddyTree h} {o : ℕ} (ht : t.Proper) (hmc : m ≤ c)
    (ha : t.alloc m c = some (o, t')) : t'.Proper := by
  induction h generalizing o with
  | zero =>
      obtain ⟨-, -, -, rfl⟩ := alloc_top hmc ha
      trivial
  | succ k ih =>
      rcases Nat.lt_or_ge c (m + (k + 1)) with hc | hc
      · rcases alloc_succ_cases hc ha with ⟨l, r, hlr, hcase⟩
        have hprop := ht.children hlr
        rcases hcase with ⟨-, l', hl', rfl⟩ | ⟨-, o', r', hr', -, rfl⟩
        · exact ⟨Or.inl (occupied_alloc hmc hl'), ih hprop.1 hl', hprop.2⟩
        · exact ⟨Or.inr (occupied_alloc hmc hr'), hprop.1, ih hprop.2 hr'⟩
      · obtain ⟨-, -, -, rfl⟩ := alloc_top hc ha
        trivial

/-- An aligned block of the region of `t` that overlaps no block given out and
lies in no sealed node. -/
structure Open {h : ℕ} (m : ℕ) (t : BuddyTree h) (b : ℕ) (B : Block) : Prop where
  aligned : B.size ∣ B.addr
  inside : B.Inside ⟨b, m + h⟩
  apart : ∀ C ∈ t.blocks m b, B.Apart C
  unsealed : ∀ S ∈ t.sealedBlocks m b, ¬ B.Inside S

theorem inside_of_mem_sealedBlocks {h : ℕ} {t : BuddyTree h} {b : ℕ} {S : Block}
    (hS : S ∈ t.sealedBlocks m b) : S.Inside ⟨b, m + h⟩ := by
  induction t generalizing b with
  | free => simp [sealedBlocks] at hS
  | used => simp [sealedBlocks] at hS
  | @split k s l r ihl ihr =>
      rcases List.mem_append.1 hS with hs | hS
      · split at hs
        · obtain rfl := List.mem_singleton.1 hs
          exact ⟨Nat.le_refl _, Nat.le_refl _⟩
        · simp at hs
      · rcases List.mem_append.1 hS with hl | hr
        · exact (ihl hl).trans (Block.left_inside b (m + k))
        · exact (ihr hr).trans (Block.right_inside b (m + k))

/-- A sealed node has nothing to offer. -/
theorem ne_sealed {h : ℕ} {t : BuddyTree (h + 1)} (ht : 1 < t.summary m) (l r : BuddyTree h) :
    t ≠ .split true l r := by
  rintro rfl
  exact absurd ht (Nat.lt_irrefl 1)

/-- Unless a node is sealed, the sealed nodes below it are those of its halves. -/
theorem sealedBlocks_of_children {h : ℕ} {t : BuddyTree (h + 1)} {l r : BuddyTree h}
    (ht : t.children = some (l, r)) (hs : ∀ l r, t ≠ .split true l r) (b : ℕ) :
    t.sealedBlocks m b = l.sealedBlocks m b ++ r.sealedBlocks m (b + 2 ^ (m + h)) := by
  cases t with
  | used => simp [children] at ht
  | free =>
      simp only [children, Option.some.injEq, Prod.mk.injEq] at ht
      rcases ht with ⟨rfl, rfl⟩
      rfl
  | split s l' r' =>
      simp only [children, Option.some.injEq, Prod.mk.injEq] at ht
      rcases ht with ⟨rfl, rfl⟩
      cases s with
      | true => exact absurd rfl (hs l' r')
      | false => rfl

theorem open_free {h b : ℕ} {B : Block} (hB : B.size ∣ B.addr) (hin : B.Inside ⟨b, m + h⟩) :
    Open m (.free : BuddyTree h) b B :=
  ⟨hB, hin, fun _ hC => absurd hC List.not_mem_nil, fun _ hS => absurd hS List.not_mem_nil⟩

/-- In the left half of a node that is not sealed, the open blocks are those of the half. -/
theorem open_left_iff {h b : ℕ} {t : BuddyTree (h + 1)} {l r : BuddyTree h} {B : Block}
    (ht : t.children = some (l, r)) (hs : ∀ l r, t ≠ .split true l r) (hin : B.Inside ⟨b, m + h⟩) :
    Open m t b B ↔ Open m l b B := by
  have hblocks := blocks_of_children (m := m) ht b
  have hsealed := sealedBlocks_of_children (m := m) ht hs b
  constructor
  · rintro ⟨haligned, -, hap, huns⟩
    rw [hblocks] at hap
    rw [hsealed] at huns
    exact ⟨haligned, hin, fun C hC => hap C (List.mem_append_left _ hC),
      fun S hS => huns S (List.mem_append_left _ hS)⟩
  · rintro ⟨haligned, -, hap, huns⟩
    refine ⟨haligned, hin.trans (Block.left_inside b (m + h)), fun C hC => ?_, fun S hS => ?_⟩
    · rw [hblocks] at hC
      exact (List.mem_append.1 hC).elim (hap C) fun hC =>
        Block.apart_of_halves hin (inside_of_mem_blocks hC).2
    · rw [hsealed] at hS
      exact (List.mem_append.1 hS).elim (huns S) fun hS =>
        (Block.apart_of_halves hin (inside_of_mem_sealedBlocks hS)).not_inside

/-- So it is in the right half. -/
theorem open_right_iff {h b : ℕ} {t : BuddyTree (h + 1)} {l r : BuddyTree h} {B : Block}
    (ht : t.children = some (l, r)) (hs : ∀ l r, t ≠ .split true l r)
    (hin : B.Inside ⟨b + 2 ^ (m + h), m + h⟩) :
    Open m t b B ↔ Open m r (b + 2 ^ (m + h)) B := by
  have hblocks := blocks_of_children (m := m) ht b
  have hsealed := sealedBlocks_of_children (m := m) ht hs b
  constructor
  · rintro ⟨haligned, -, hap, huns⟩
    rw [hblocks] at hap
    rw [hsealed] at huns
    exact ⟨haligned, hin, fun C hC => hap C (List.mem_append_right _ hC),
      fun S hS => huns S (List.mem_append_right _ hS)⟩
  · rintro ⟨haligned, -, hap, huns⟩
    refine ⟨haligned, hin.trans (Block.right_inside b (m + h)), fun C hC => ?_, fun S hS => ?_⟩
    · rw [hblocks] at hC
      exact (List.mem_append.1 hC).elim
        (fun hC => (Block.apart_of_halves (inside_of_mem_blocks hC).2 hin).symm) (hap C)
    · rw [hsealed] at hS
      exact (List.mem_append.1 hS).elim
        (fun hS => (Block.apart_of_halves (inside_of_mem_sealedBlocks hS) hin).symm.not_inside)
        (huns S)

/-- A tree that is not wholly free has no open block of its own class. -/
theorem Open.cls_lt {h b : ℕ} {t : BuddyTree h} {B : Block} (hB : Open m t b B)
    (ht : t.Occupied) : B.cls < m + h := by
  by_contra hge
  rcases ht.exists_block (m := m) b with ⟨C, hC⟩
  have h1 := hB.apart C hC
  have h2 := (inside_of_mem_blocks hC).2
  have h3 := C.size_pos
  have h4 : 2 ^ (m + h) ≤ 2 ^ B.cls := Nat.pow_le_pow_right (by decide) (Nat.le_of_not_lt hge)
  have h5 := hB.inside
  simp only [Block.Inside, Block.Apart, Buddy.Apart, Block.size] at h1 h2 h3 h5
  omega

/-- The summary is exact about the blocks that no sealed node hides. -/
theorem le_summary_iff {h c b : ℕ} {t : BuddyTree h} (ht : t.Proper) (hb : 2 ^ (m + h) ∣ b)
    (hmc : m ≤ c) (hc1 : 1 < c) :
    c ≤ t.summary m ↔ ∃ B : Block, B.cls = c ∧ Open m t b B := by
  induction t generalizing b with
  | @free k =>
      constructor
      · intro hs
        simp only [summary] at hs
        refine ⟨⟨b, c⟩, rfl, open_free (dvd_trans (Nat.pow_dvd_pow 2 hs) hb) ⟨Nat.le_refl _, ?_⟩⟩
        exact Nat.add_le_add_left (Nat.pow_le_pow_right (by omega) hs) _
      · rintro ⟨B, rfl, hB⟩
        exact hB.inside.cls_le
  | @used k =>
      constructor
      · intro hs
        simp only [summary] at hs
        omega
      · rintro ⟨B, rfl, hB⟩
        exact absurd hB.inside (hB.apart _ (List.mem_singleton.2 rfl)).not_inside
  | @split k s l r ihl ihr =>
      have hk : 2 ^ (m + k) ∣ b := dvd_trans (Nat.pow_dvd_pow 2 (by omega)) hb
      have hk' : 2 ^ (m + k) ∣ b + 2 ^ (m + k) := Nat.dvd_add hk dvd_rfl
      cases s with
      | true =>
          -- a sealed node promises nothing, and everything below it is hidden
          constructor
          · intro hs
            simp only [summary] at hs
            omega
          · rintro ⟨B, rfl, hB⟩
            exact (hB.unsealed ⟨b, m + (k + 1)⟩ (by simp [sealedBlocks]) hB.inside).elim
      | false =>
          have hs : ∀ l' r', split false l r ≠ .split true l' r' := nofun
          simp only [summary, le_sup_iff]
          rw [ihl ht.2.1 hk, ihr ht.2.2 hk']
          constructor
          · rintro (⟨B, hc, hB⟩ | ⟨B, hc, hB⟩)
            · exact ⟨B, hc, (open_left_iff rfl hs hB.inside).2 hB⟩
            · exact ⟨B, hc, (open_right_iff rfl hs hB.inside).2 hB⟩
          · rintro ⟨B, hc, hB⟩
            have hle : B.cls ≤ m + k := Nat.le_of_lt_succ (hB.cls_lt ht.1)
            rcases Block.inside_half hB.aligned hb hB.inside hle with hin | hin
            · exact Or.inl ⟨B, hc, (open_left_iff rfl hs hin).1 hB⟩
            · exact Or.inr ⟨B, hc, (open_right_iff rfl hs hin).1 hB⟩

/-! ## Trees from which nothing is given back -/

/-- The block that is given out was open. -/
theorem open_alloc {h c o b : ℕ} {t t' : BuddyTree h} (hmc : m ≤ c) (hc1 : 1 < c)
    (hb : 2 ^ (m + h) ∣ b) (hs : c ≤ t.summary m) (ha : t.alloc m c = some (o, t')) :
    Open m t b ⟨b + o, c⟩ := by
  induction h generalizing o b with
  | zero =>
      obtain ⟨rfl, rfl, rfl, rfl⟩ := alloc_top hmc ha
      exact open_free hb ⟨Nat.le_refl _, Nat.le_refl _⟩
  | succ k ih =>
      rcases Nat.lt_or_ge c (m + (k + 1)) with hc | hc
      · have hk : 2 ^ (m + k) ∣ b := dvd_trans (Nat.pow_dvd_pow 2 (by omega)) hb
        have hsealed := ne_sealed (m := m) (t := t) (by omega)
        obtain ⟨l, r, hlr, ⟨hl, l', hl', -⟩ | ⟨hl, o', r', hr', rfl, -⟩⟩ := alloc_succ_cases hc ha
        · have hopen := ih hk hl hl'
          exact (open_left_iff hlr hsealed hopen.inside).2 hopen
        · have hr := (le_summary_children hlr hc1 hc hs).resolve_left hl
          have hopen := ih (Nat.dvd_add hk dvd_rfl) hr hr'
          rw [Nat.add_assoc] at hopen
          exact (open_right_iff hlr hsealed hopen.inside).2 hopen
      · obtain ⟨rfl, rfl, rfl, rfl⟩ := alloc_top hc ha
        exact open_free hb ⟨Nat.le_refl _, Nat.le_refl _⟩

theorem summary_children_le {h : ℕ} {t : BuddyTree (h + 1)} {l r : BuddyTree h}
    (ht : t.children = some (l, r)) (hs : 1 < t.summary m) :
    l.summary m ≤ t.summary m ∧ r.summary m ≤ t.summary m := by
  cases t with
  | used => simp [children] at ht
  | free =>
      simp only [children, Option.some.injEq, Prod.mk.injEq] at ht
      rcases ht with ⟨rfl, rfl⟩
      simp only [summary]
      omega
  | split s l' r' =>
      simp only [children, Option.some.injEq, Prod.mk.injEq] at ht
      rcases ht with ⟨rfl, rfl⟩
      cases s with
      | true => exact absurd hs (Nat.lt_irrefl 1)
      | false => exact ⟨le_max_left _ _, le_max_right _ _⟩

/-- What a node has to offer above a class, one of its halves has, or both are free. -/
theorem lt_summary_children {h c : ℕ} {t : BuddyTree (h + 1)} {l r : BuddyTree h}
    (ht : t.children = some (l, r)) (hc1 : 1 < c) (hs : c < t.summary m) :
    c < l.summary m ∨ c < r.summary m ∨ l.summary m = m + h ∧ r.summary m = m + h := by
  cases t with
  | used => simp [children] at ht
  | free =>
      simp only [children, Option.some.injEq, Prod.mk.injEq] at ht
      rcases ht with ⟨rfl, rfl⟩
      exact Or.inr (Or.inr ⟨rfl, rfl⟩)
  | split s l' r' =>
      simp only [children, Option.some.injEq, Prod.mk.injEq] at ht
      rcases ht with ⟨rfl, rfl⟩
      cases s with
      | true => exact absurd (Nat.lt_trans hc1 hs) (Nat.lt_irrefl 1)
      | false => exact (lt_max_iff.1 hs).imp_right Or.inl

/-- A node that had just this class to offer is sealed, and one that had more still has it. -/
theorem summary_alloc {h c o : ℕ} {t t' : BuddyTree h} (hmc : m ≤ c) (hc1 : 1 < c)
    (hs : c ≤ t.summary m) (ha : t.alloc m c = some (o, t')) :
    t'.summary m ≤ t.summary m ∧ (t.summary m = c → t'.summary m ≤ 1) ∧
      (c < t.summary m → c ≤ t'.summary m) := by
  induction h generalizing o with
  | zero =>
      obtain ⟨rfl, rfl, -, rfl⟩ := alloc_top hmc ha
      exact ⟨Nat.zero_le _, fun _ => Nat.zero_le _, fun h => absurd h (Nat.lt_irrefl _)⟩
  | succ k ih =>
      rcases Nat.lt_or_ge c (m + (k + 1)) with hc | hc
      · rcases alloc_succ_cases hc ha with ⟨l, r, hlr, hcase⟩
        have hle := summary_children_le (m := m) hlr (by omega)
        by_cases heq : t.summary m = c
        · -- it is sealed
          have hone : t'.summary m = 1 := by
            rw [decide_eq_true heq] at hcase
            rcases hcase with ⟨-, l', -, rfl⟩ | ⟨-, o', r', -, -, rfl⟩ <;> rfl
          exact ⟨by omega, fun _ => by omega, fun hlt => absurd heq (Nat.ne_of_gt hlt)⟩
        · have hmore := lt_summary_children hlr hc1 (Nat.lt_of_le_of_ne hs (Ne.symm heq))
          rw [decide_eq_false heq] at hcase
          refine ⟨?_, fun h => absurd h heq, fun _ => ?_⟩
          · rcases hcase with ⟨hl, l', hl', rfl⟩ | ⟨hl, o', r', hr', -, rfl⟩
            · exact max_le ((ih hl hl').1.trans hle.1) hle.2
            · have hr := (le_summary_children hlr hc1 hc hs).resolve_left hl
              exact max_le hle.1 ((ih hr hr').1.trans hle.2)
          · rcases hcase with ⟨hl, l', hl', rfl⟩ | ⟨hl, o', r', hr', -, rfl⟩
            · refine le_max_iff.2 ?_
              rcases hmore with hmore | hmore | hmore
              · exact Or.inl ((ih hl hl').2.2 hmore)
              · exact Or.inr hmore.le
              · exact Or.inr (by omega)
            · refine le_max_iff.2 (Or.inr ?_)
              have hr : c < r.summary m := by omega
              exact (ih hr.le hr').2.2 hr
      · obtain ⟨rfl, rfl, -, rfl⟩ := alloc_top hc ha
        exact ⟨Nat.zero_le _, fun _ => Nat.zero_le _, fun h => absurd h (Nat.lt_irrefl _)⟩

/-- Above the class asked for, a node is sealed if it had just this class to offer, and only then. -/
theorem summary_alloc_eq_one_iff {h c o : ℕ} {t t' : BuddyTree h} (hmc : m ≤ c) (hc1 : 1 < c)
    (hc : c < m + h) (hs : c ≤ t.summary m) (ha : t.alloc m c = some (o, t')) :
    t'.summary m = 1 ↔ t.summary m = c := by
  constructor
  · intro hone
    have hmore := (summary_alloc hmc hc1 hs ha).2.2
    omega
  · intro heq
    cases h with
    | zero => omega
    | succ k =>
        obtain ⟨l, r, -, ⟨-, l', -, rfl⟩ | ⟨-, o', r', -, -, rfl⟩⟩ := alloc_succ_cases hc ha
        · rw [decide_eq_true heq]
          rfl
        · rw [decide_eq_true heq]
          rfl

variable (m) in
/-- The right half of a split node has more to offer than the left one, or nothing. -/
def LeftFirst : {h : ℕ} → BuddyTree h → Prop
  | _, .free => True
  | _, .used => True
  | _, .split _ l r => (r.summary m ≤ 1 ∨ l.summary m < r.summary m) ∧ l.LeftFirst ∧ r.LeftFirst

theorem LeftFirst.children {h : ℕ} {t : BuddyTree (h + 1)} {l r : BuddyTree h} (ht : t.LeftFirst m)
    (hlr : t.children = some (l, r)) :
    (l = .free ∧ r = .free ∨ r.summary m ≤ 1 ∨ l.summary m < r.summary m) ∧
      l.LeftFirst m ∧ r.LeftFirst m := by
  cases t with
  | used => simp [BuddyTree.children] at hlr
  | free =>
      simp only [BuddyTree.children, Option.some.injEq, Prod.mk.injEq] at hlr
      rcases hlr with ⟨rfl, rfl⟩
      exact ⟨Or.inl ⟨rfl, rfl⟩, trivial, trivial⟩
  | split s l' r' =>
      simp only [BuddyTree.children, Option.some.injEq, Prod.mk.injEq] at hlr
      rcases hlr with ⟨rfl, rfl⟩
      exact ⟨Or.inr ht.1, ht.2⟩

/-- The search goes left first, so allocation keeps it. -/
theorem LeftFirst.alloc {h c o : ℕ} {t t' : BuddyTree h} (ht : t.LeftFirst m) (hm : 1 < m)
    (hmc : m ≤ c) (hs : c ≤ t.summary m) (ha : t.alloc m c = some (o, t')) : t'.LeftFirst m := by
  have hc1 : 1 < c := Nat.lt_of_lt_of_le hm hmc
  induction h generalizing o with
  | zero =>
      obtain ⟨-, -, -, rfl⟩ := alloc_top hmc ha
      trivial
  | succ k ih =>
      rcases Nat.lt_or_ge c (m + (k + 1)) with hc | hc
      · rcases alloc_succ_cases hc ha with ⟨l, r, hlr, hcase⟩
        rcases ht.children hlr with ⟨horder, hfl, hfr⟩
        rcases hcase with ⟨hl, l', hl', rfl⟩ | ⟨hl, o', r', hr', -, rfl⟩
        · refine ⟨?_, ih hfl hl hl', hfr⟩
          rcases horder with ⟨rfl, rfl⟩ | hone | hlt
          · -- the right half is still wholly free
            refine Or.inr (Nat.lt_of_le_of_ne (summary_le l') fun heq => ?_)
            have hocc := occupied_alloc hmc hl'
            rw [(summary_eq_iff hm).1 heq] at hocc
            exact hocc
          · exact Or.inl hone
          · exact Or.inr (Nat.lt_of_le_of_lt (summary_alloc hmc hc1 hl hl').1 hlt)
        · have hr := (le_summary_children hlr hc1 hc hs).resolve_left hl
          refine ⟨?_, hfl, ih hfr hr hr'⟩
          -- the left half did not have the class, and the right one keeps it or is sealed
          rcases summary_alloc hmc hc1 hr hr' with ⟨-, hlast, hmore⟩
          rcases Nat.eq_or_lt_of_le hr with heq | hlt
          · exact Or.inl (hlast heq.symm)
          · exact Or.inr (Nat.lt_of_lt_of_le (Nat.lt_of_not_le hl) (hmore hlt))
      · obtain ⟨-, -, -, rfl⟩ := alloc_top hc ha
        trivial

/-- Below the largest class that a tree has to offer there are two open blocks. -/
theorem exists_open_pair {h c b : ℕ} {t : BuddyTree h} (hb : 2 ^ (m + h) ∣ b) (hc1 : 1 < c)
    (hs : c < t.summary m) :
    ∃ B C : Block, B ≠ C ∧ (B.cls = c ∧ Open m t b B) ∧ C.cls = c ∧ Open m t b C := by
  induction t generalizing b with
  | @free k =>
      simp only [summary] at hs
      have hcb : 2 ^ c ∣ b := dvd_trans (Nat.pow_dvd_pow 2 hs.le) hb
      have htwo : 2 ^ c + 2 ^ c ≤ 2 ^ (m + k) := by
        rw [← Nat.two_mul, ← Nat.pow_succ']
        exact Nat.pow_le_pow_right Nat.two_pos hs
      refine ⟨⟨b, c⟩, ⟨b + 2 ^ c, c⟩, fun he => ?_, ⟨rfl, open_free hcb ⟨Nat.le_refl _, ?_⟩⟩, rfl,
        open_free (Nat.dvd_add hcb dvd_rfl) ⟨Nat.le_add_right _ _, ?_⟩⟩
      · have hpos := Nat.two_pow_pos c
        have := congrArg Block.addr he
        simp only at this
        omega
      · simp only [Block.size]
        omega
      · simp only [Block.size]
        omega
  | used => exact absurd hs (Nat.not_lt_zero c)
  | @split k s l r ihl ihr =>
      have hk : 2 ^ (m + k) ∣ b := dvd_trans (Nat.pow_dvd_pow 2 (by omega)) hb
      have hsealed := ne_sealed (m := m) (t := .split s l r) (by omega)
      have hhalf : c < l.summary m ∨ c < r.summary m := by
        cases s with
        | true => exact absurd (Nat.lt_trans hc1 hs) (Nat.lt_irrefl 1)
        | false => exact lt_max_iff.1 hs
      rcases hhalf with hl | hr
      · rcases ihl hk hl with ⟨B, C, hne, ⟨hBc, hB⟩, hCc, hC⟩
        exact ⟨B, C, hne, ⟨hBc, (open_left_iff rfl hsealed hB.inside).2 hB⟩, hCc,
          (open_left_iff rfl hsealed hC.inside).2 hC⟩
      · rcases ihr (Nat.dvd_add hk dvd_rfl) hr with ⟨B, C, hne, ⟨hBc, hB⟩, hCc, hC⟩
        exact ⟨B, C, hne, ⟨hBc, (open_right_iff rfl hsealed hB.inside).2 hB⟩, hCc,
          (open_right_iff rfl hsealed hC.inside).2 hC⟩

/-- There is just one open block of the largest class that a tree has to offer. -/
theorem LeftFirst.open_unique {h b : ℕ} {t : BuddyTree h} (ht : t.LeftFirst m) (hp : t.Proper)
    (hm : 1 < m) (hb : 2 ^ (m + h) ∣ b) {B C : Block} (hmB : m ≤ B.cls)
    (hs : t.summary m = B.cls) (hcls : C.cls = B.cls) (hB : Open m t b B) (hC : Open m t b C) :
    C = B := by
  induction t generalizing b with
  | @free k =>
      -- both are the whole region
      have haddr : ∀ {D : Block}, D.cls = m + k → D.Inside ⟨b, m + k⟩ → D.addr = b := by
        intro D hD hin
        simp only [Block.Inside, Block.size, hD] at hin
        omega
      have hBk : B.cls = m + k := hs.symm
      have hCB := (haddr (hcls.trans hBk) hC.inside).trans (haddr hBk hB.inside).symm
      cases B
      cases C
      exact congrArg₂ Block.mk hCB hcls
  | used =>
      have : 0 = B.cls := hs
      omega
  | @split k s l r ihl ihr =>
      have hk : 2 ^ (m + k) ∣ b := dvd_trans (Nat.pow_dvd_pow 2 (by omega)) hb
      have hk' : 2 ^ (m + k) ∣ b + 2 ^ (m + k) := Nat.dvd_add hk dvd_rfl
      have hsealed := ne_sealed (m := m) (t := .split s l r) (by omega)
      have hle := summary_children_le (m := m) (t := .split s l r) rfl (by omega)
      rw [hs] at hle
      -- each lies in a half that has it to offer
      have hhalf : ∀ D : Block, D.cls = B.cls → Open m (.split s l r) b D →
          Open m l b D ∧ B.cls = l.summary m ∨ Open m r (b + 2 ^ (m + k)) D ∧ B.cls = r.summary m := by
        intro D hD hopen
        have hlt : D.cls ≤ m + k := Nat.le_of_lt_succ (hopen.cls_lt hp.1)
        rcases Block.inside_half hopen.aligned hb hopen.inside hlt with hin | hin
        · have hopen := (open_left_iff rfl hsealed hin).1 hopen
          have := (le_summary_iff hp.2.1 hk hmB (Nat.lt_of_lt_of_le hm hmB)).2 ⟨D, hD, hopen⟩
          exact Or.inl ⟨hopen, by omega⟩
        · have hopen := (open_right_iff rfl hsealed hin).1 hopen
          have := (le_summary_iff hp.2.2 hk' hmB (Nat.lt_of_lt_of_le hm hmB)).2 ⟨D, hD, hopen⟩
          exact Or.inr ⟨hopen, by omega⟩
      -- not both halves have it, since the search went left first
      have horder := ht.1
      rcases hhalf B rfl hB with ⟨hB, hl⟩ | ⟨hB, hr⟩ <;>
        rcases hhalf C hcls hC with ⟨hC, hl'⟩ | ⟨hC, hr'⟩
      · exact ihl ht.2.1 hp.2.1 hk hl.symm hB hC
      · omega
      · omega
      · exact ihr ht.2.2 hp.2.2 hk' hr.symm hB hC

/-- A tree has nothing above a class to offer exactly if an open block of the class is the only
one. -/
theorem LeftFirst.summary_eq_iff {h b : ℕ} {t : BuddyTree h} (ht : t.LeftFirst m) (hp : t.Proper)
    (hm : 1 < m) (hb : 2 ^ (m + h) ∣ b) {B : Block} (hmB : m ≤ B.cls) (hB : Open m t b B) :
    t.summary m = B.cls ↔ ∀ C : Block, C.cls = B.cls → Open m t b C → C = B := by
  have hc1 := Nat.lt_of_lt_of_le hm hmB
  have hle := (le_summary_iff hp hb hmB hc1).2 ⟨B, rfl, hB⟩
  constructor
  · exact fun hs C hcls hC => ht.open_unique hp hm hb hmB hs hcls hB hC
  · intro honly
    -- above the class there would be another one
    refine (Nat.eq_or_lt_of_le hle).elim Eq.symm fun hlt => ?_
    rcases exists_open_pair hb hc1 hlt with ⟨C, D, hne, ⟨hCc, hC⟩, hDc, hD⟩
    exact absurd ((honly C hCc hC).trans (honly D hDc hD).symm) hne

end BuddyTree

end Buddy
