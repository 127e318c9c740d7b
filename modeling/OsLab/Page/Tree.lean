import OsLab.Page.Basic
import OsLab.Lib.Buddy

/-! # The tree of a unit represents a buddy tree

`Rep t T i`: the bytes `t` below node `i` are the summaries of the buddy tree
`T`. The bytes below a node that was given out as a whole are not looked at:
the code leaves them as they are (they still look free).

* `getSpaceInPage_spec`: on a represented tree `get_space_in_page` does what
  `BuddyTree.alloc` does, and touches only nodes below the one it is called on;
* `freeSpaceInPage_root`: `free_space_in_page` called on the root, as
  `page_free` does, returns at once.
-/

namespace OsLab

open Buddy

/-! ## Representation -/

/-- All nodes below `i` (height `h`) have the value `page_init` gives them. -/
def Pristine (t : ℕ → ℕ) : ℕ → ℕ → Prop
  | 0, i => t i = P_4K
  | h + 1, i =>
      t i = P_4K + (h + 1) ∧ Pristine t h (leftBranch i) ∧ Pristine t h (rightBranch i)

/-- The nodes `t` below `i` represent the buddy tree `T`. -/
def Rep (t : ℕ → ℕ) : {h : ℕ} → BuddyTree h → ℕ → Prop
  | h, .free, i => Pristine t h i
  | _, .used, i => t i = FULL_USED
  | _, .split s l r, i =>
      t i = (BuddyTree.split s l r).summary P_4K ∧ Rep t l (leftBranch i) ∧ Rep t r (rightBranch i)

/-- `j` is `i` or a descendant of `i`. -/
def Under (i j : ℕ) : Prop := ∃ d, j / 2 ^ d = i

theorem Under.refl (i : ℕ) : Under i i := ⟨0, by simp⟩

theorem Under.of_left {i j : ℕ} (h : Under (leftBranch i) j) : Under i j := by
  rcases h with ⟨d, hd⟩
  refine ⟨d + 1, ?_⟩
  rw [Nat.pow_succ, ← Nat.div_div_eq_div_mul, hd, leftBranch]
  omega

theorem Under.of_right {i j : ℕ} (h : Under (rightBranch i) j) : Under i j := by
  rcases h with ⟨d, hd⟩
  refine ⟨d + 1, ?_⟩
  rw [Nat.pow_succ, ← Nat.div_div_eq_div_mul, hd, rightBranch]
  omega

theorem Under.le {i j : ℕ} (h : Under i j) : i ≤ j := by
  rcases h with ⟨d, rfl⟩
  exact Nat.div_le_self _ _

theorem not_under_left {i : ℕ} (hi : 0 < i) : ¬ Under (leftBranch i) i := by
  intro h
  have := h.le
  simp only [leftBranch] at this
  omega

theorem not_under_right {i : ℕ} : ¬ Under (rightBranch i) i := by
  intro h
  have := h.le
  simp only [rightBranch] at this
  omega

/-- The two subtrees of a node have no node in common. -/
theorem not_under_both {i j : ℕ} (hi : 0 < i) (hl : Under (leftBranch i) j)
    (hr : Under (rightBranch i) j) : False := by
  rcases hl with ⟨d, hd⟩
  rcases hr with ⟨e, he⟩
  rcases Nat.le_total d e with hde | hed
  · rcases Nat.exists_eq_add_of_le hde with ⟨k, rfl⟩
    rw [Nat.pow_add, ← Nat.div_div_eq_div_mul, hd] at he
    have := Nat.div_le_self (leftBranch i) (2 ^ k)
    simp only [leftBranch, rightBranch] at this he
    omega
  · rcases Nat.exists_eq_add_of_le hed with ⟨k, rfl⟩
    rw [Nat.pow_add, ← Nat.div_div_eq_div_mul, he] at hd
    cases k with
    | zero =>
        simp only [leftBranch, rightBranch, Nat.pow_zero, Nat.div_one] at hd
        omega
    | succ k =>
        rw [Nat.pow_succ, Nat.mul_comm, ← Nat.div_div_eq_div_mul] at hd
        have := Nat.div_le_self (rightBranch i / 2) (2 ^ k)
        simp only [leftBranch, rightBranch] at this hd
        omega

/-- A descendant is the node itself or lies below one of its children. -/
theorem Under.cases {i j : ℕ} (h : Under i j) :
    j = i ∨ Under (leftBranch i) j ∨ Under (rightBranch i) j := by
  rcases h with ⟨d, hd⟩
  cases d with
  | zero => exact Or.inl (by simpa using hd)
  | succ d =>
      rw [Nat.pow_succ, ← Nat.div_div_eq_div_mul] at hd
      have hhalf : j / 2 ^ d = leftBranch i ∨ j / 2 ^ d = rightBranch i := by
        simp only [leftBranch, rightBranch]
        omega
      exact Or.inr (hhalf.imp (fun he => ⟨d, he⟩) fun he => ⟨d, he⟩)

/-- Every node is below the root. -/
theorem under_root {j : ℕ} (hj : 1 ≤ j) : Under 1 j := by
  refine ⟨Nat.log2 j, ?_⟩
  have hlog := (Nat.log2_eq_iff (n := j) (k := Nat.log2 j) (by omega)).1 rfl
  rw [Nat.pow_succ] at hlog
  exact Nat.div_eq_of_lt_le (by omega) (by omega)

/-- Node `i` is a node of height `h` (class `P_4K + h`). -/
def AtHeight (h i : ℕ) : Prop := h ≤ 12 ∧ 2 ^ (12 - h) ≤ i ∧ i < 2 ^ (13 - h)

theorem AtHeight.pos {h i : ℕ} (hi : AtHeight h i) : 0 < i :=
  Nat.lt_of_lt_of_le (Nat.two_pow_pos _) hi.2.1

theorem AtHeight.lt {h i : ℕ} (hi : AtHeight h i) : i < PAGE_NODE_NUM :=
  Nat.lt_of_lt_of_le hi.2.2 (Nat.pow_le_pow_right (by omega) (by omega))

/-- The height of a node shows in its index. -/
theorem AtHeight.class_eq {h i : ℕ} (hi : AtHeight h i) : P_16M - Nat.log2 i = P_4K + h := by
  have hh := hi.1
  have hlog : Nat.log2 i = 12 - h := by
    rw [Nat.log2_eq_iff (Nat.ne_of_gt hi.pos), show 12 - h + 1 = 13 - h by omega]
    exact hi.2
  rw [hlog]
  simp only [P_16M, P_4K]
  omega

theorem AtHeight.left {h i : ℕ} (hi : AtHeight (h + 1) i) : AtHeight h (leftBranch i) := by
  rcases hi with ⟨h1, h2, h3⟩
  have e1 : 2 ^ (12 - h) = 2 ^ (12 - (h + 1)) * 2 := by
    rw [← Nat.pow_succ]; congr 1; omega
  have e2 : 2 ^ (13 - h) = 2 ^ (13 - (h + 1)) * 2 := by
    rw [← Nat.pow_succ]; congr 1; omega
  refine ⟨by omega, ?_, ?_⟩ <;> simp only [leftBranch] <;> omega

theorem AtHeight.right {h i : ℕ} (hi : AtHeight (h + 1) i) : AtHeight h (rightBranch i) := by
  rcases hi with ⟨h1, h2, h3⟩
  have e1 : 2 ^ (12 - h) = 2 ^ (12 - (h + 1)) * 2 := by
    rw [← Nat.pow_succ]; congr 1; omega
  have e2 : 2 ^ (13 - h) = 2 ^ (13 - (h + 1)) * 2 := by
    rw [← Nat.pow_succ]; congr 1; omega
  refine ⟨by omega, ?_, ?_⟩ <;> simp only [rightBranch] <;> omega

theorem atHeight_root : AtHeight 12 1 := ⟨Nat.le_refl _, by decide, by decide⟩

/-- A node and its descendants are read only below `PAGE_NODE_NUM`. -/
theorem Pristine.congr {t t' : ℕ → ℕ} {h i : ℕ} (hi : AtHeight h i) (hp : Pristine t h i)
    (heq : ∀ j, Under i j → j < PAGE_NODE_NUM → t' j = t j) : Pristine t' h i := by
  induction h generalizing i with
  | zero => exact (heq i (Under.refl i) hi.lt).trans hp
  | succ h ih =>
      exact ⟨(heq i (Under.refl i) hi.lt).trans hp.1,
        ih hi.left hp.2.1 fun j hj => heq j hj.of_left,
        ih hi.right hp.2.2 fun j hj => heq j hj.of_right⟩

theorem Rep.congr {t t' : ℕ → ℕ} {h i : ℕ} {T : BuddyTree h} (hi : AtHeight h i) (hr : Rep t T i)
    (heq : ∀ j, Under i j → j < PAGE_NODE_NUM → t' j = t j) : Rep t' T i := by
  induction T generalizing i with
  | free => exact Pristine.congr hi hr heq
  | used => exact (heq i (Under.refl i) hi.lt).trans hr
  | split s l r ihl ihr =>
      exact ⟨(heq i (Under.refl i) hi.lt).trans hr.1,
        ihl hi.left hr.2.1 fun j hj => heq j hj.of_left,
        ihr hi.right hr.2.2 fun j hj => heq j hj.of_right⟩

theorem Pristine.val {t : ℕ → ℕ} {h i : ℕ} (hp : Pristine t h i) : t i = P_4K + h := by
  cases h with
  | zero => exact hp
  | succ h => exact hp.1

/-- The leaves have no descendants. -/
theorem AtHeight.eq_of_under {i j : ℕ} (hi : AtHeight 0 i) (hj : Under i j)
    (hlt : j < PAGE_NODE_NUM) : j = i := by
  have hi2 : 4096 ≤ i := hi.2.1
  simp only [PAGE_NODE_NUM] at hlt
  rcases hj.cases with h | h | h
  · exact h
  · have := h.le
    simp only [leftBranch] at this
    omega
  · have := h.le
    simp only [rightBranch] at this
    omega

/-- A pristine tree has the values of `page_init` in all its nodes. -/
theorem Pristine.val_of_under {t : ℕ → ℕ} {h i j : ℕ} (hp : Pristine t h i) (hi : AtHeight h i)
    (hj : Under i j) (hlt : j < PAGE_NODE_NUM) : t j = P_16M - Nat.log2 j := by
  have hval : ∀ {h i}, AtHeight h i → Pristine t h i → t i = P_16M - Nat.log2 i :=
    fun hi hp => hp.val.trans hi.class_eq.symm
  induction h generalizing i with
  | zero => rw [hi.eq_of_under hj hlt]; exact hval hi hp
  | succ h ih =>
      rcases hj.cases with rfl | hl | hr
      · exact hval hi hp
      · exact ih hp.2.1 hi.left hl
      · exact ih hp.2.2 hi.right hr

theorem rep_free {t : ℕ → ℕ} {h i : ℕ} : Rep t (.free : BuddyTree h) i ↔ Pristine t h i := Iff.rfl

/-- A node holds the summary of what it represents. -/
theorem Rep.val {t : ℕ → ℕ} {h i : ℕ} {T : BuddyTree h} (hr : Rep t T i) : t i = T.summary P_4K := by
  cases T with
  | free => exact Pristine.val hr
  | used => exact hr
  | split s l r => exact hr.1

/-- The children of a node represent the two halves. -/
theorem Rep.children {t : ℕ → ℕ} {h i : ℕ} {T : BuddyTree (h + 1)} {l r : BuddyTree h} (hr : Rep t T i)
    (hT : T.children = some (l, r)) : Rep t l (leftBranch i) ∧ Rep t r (rightBranch i) := by
  cases T with
  | used => simp [BuddyTree.children] at hT
  | free =>
      simp only [BuddyTree.children, Option.some.injEq, Prod.mk.injEq] at hT
      rcases hT with ⟨rfl, rfl⟩
      exact hr.2
  | split s l' r' =>
      simp only [BuddyTree.children, Option.some.injEq, Prod.mk.injEq] at hT
      rcases hT with ⟨rfl, rfl⟩
      exact hr.2

/-! ## Nodes of the state -/

namespace PageSys

@[simp] theorem node_setNode_self (σ : PageSys) (page : ℕ) (i v : ℕ) :
    (σ.setNode page i v).node page i = v := by
  simp [node, setNode]

theorem node_setNode_ne (σ : PageSys) (page : ℕ) {i j : ℕ} (v : ℕ) (h : j ≠ i) :
    (σ.setNode page i v).node page j = σ.node page j := by
  have hne : page + j ≠ page + i := by omega
  exact Function.update_of_ne hne _ _

/-- `σ'` differs from `σ` at most in the nodes below `i` of the tree at `page`. -/
structure ChangesUnder (page : ℕ) (i : ℕ) (σ σ' : PageSys) : Prop where
  beginPageAddr : σ'.beginPageAddr = σ.beginPageAddr
  beginAllocAddr : σ'.beginAllocAddr = σ.beginAllocAddr
  realPageNum : σ'.realPageNum = σ.realPageNum
  pagePool : σ'.pagePool = σ.pagePool
  pageLocks : σ'.pageLocks = σ.pageLocks
  mem : ∀ a, (∀ j, Under i j → j < PAGE_NODE_NUM → a ≠ page + j) → σ'.mem a = σ.mem a

theorem ChangesUnder.node {page : ℕ} {i j : ℕ} {σ σ' : PageSys}
    (h : ChangesUnder page i σ σ') (hj : ¬ Under i j) : σ'.node page j = σ.node page j := by
  refine h.mem _ fun k hk _ he => hj ?_
  have : k = j := by omega
  exact this ▸ hk

theorem changesUnder_setNode (σ : PageSys) (page : ℕ) {i : ℕ} (v : ℕ)
    (hi : i < PAGE_NODE_NUM) : ChangesUnder page i σ (σ.setNode page i v) where
  beginPageAddr := rfl
  beginAllocAddr := rfl
  realPageNum := rfl
  pagePool := rfl
  pageLocks := rfl
  mem _ ha := Function.update_of_ne (ha i (Under.refl i) hi) _ _

theorem ChangesUnder.mono {page : ℕ} {i k : ℕ} {σ σ' : PageSys}
    (h : ChangesUnder page k σ σ') (hk : ∀ j, Under k j → Under i j) :
    ChangesUnder page i σ σ' :=
  { h with mem := fun a ha => h.mem a fun j hj hlt => ha j (hk j hj) hlt }

theorem ChangesUnder.trans {page : ℕ} {i : ℕ} {σ σ' σ'' : PageSys}
    (h : ChangesUnder page i σ σ') (h' : ChangesUnder page i σ' σ'') :
    ChangesUnder page i σ σ'' where
  beginPageAddr := h'.beginPageAddr.trans h.beginPageAddr
  beginAllocAddr := h'.beginAllocAddr.trans h.beginAllocAddr
  realPageNum := h'.realPageNum.trans h.realPageNum
  pagePool := h'.pagePool.trans h.pagePool
  pageLocks := h'.pageLocks.trans h.pageLocks
  mem a ha := (h'.mem a ha).trans (h.mem a ha)

end PageSys

/-! ## Addresses of nodes -/

theorem powerOfTwo_getD {k : ℕ} (hk : k ≤ 12) : powerOfTwo.getD k 0 = 2 ^ k := by
  have : ∀ k ≤ 12, powerOfTwo.getD k 0 = 2 ^ k := by decide
  exact this k hk

/-- The left half of a block starts where the block starts. -/
theorem convert_left {σ : PageSys} {page : ℕ} {h i : ℕ} (hi : AtHeight (h + 1) i) :
    convertPageToPhsics σ page (leftBranch i) (P_4K + h) =
      convertPageToPhsics σ page i (P_4K + (h + 1)) := by
  rcases hi with ⟨h1, h2, -⟩
  have e1 : P_16M - (P_4K + h) = 12 - h := by simp only [P_16M, P_4K]; omega
  have e2 : P_16M - (P_4K + (h + 1)) = 12 - (h + 1) := by simp only [P_16M, P_4K]; omega
  have e3 : 2 ^ (12 - h) = 2 ^ (12 - (h + 1)) * 2 := by
    rw [← Nat.pow_succ]; congr 1; omega
  simp only [convertPageToPhsics, e1, e2]
  rw [powerOfTwo_getD (by omega), powerOfTwo_getD (by omega), e3, leftBranch, ← Nat.sub_mul]
  ring

/-- The right half follows the left half. -/
theorem convert_right {σ : PageSys} {page : ℕ} {h i : ℕ} (hi : AtHeight (h + 1) i) :
    convertPageToPhsics σ page (rightBranch i) (P_4K + h) =
      convertPageToPhsics σ page i (P_4K + (h + 1)) + 2 ^ (P_4K + h) := by
  rw [← convert_left hi]
  rcases hi with ⟨h1, h2, -⟩
  have e1 : P_16M - (P_4K + h) = 12 - h := by simp only [P_16M, P_4K]; omega
  have e3 : 2 ^ (12 - h) = 2 ^ (12 - (h + 1)) * 2 := by
    rw [← Nat.pow_succ]; congr 1; omega
  simp only [convertPageToPhsics, e1]
  rw [powerOfTwo_getD (by omega), e3, rightBranch, leftBranch]
  have e4 : i * 2 + 1 - 2 ^ (12 - (h + 1)) * 2 = (i * 2 - 2 ^ (12 - (h + 1)) * 2) + 1 := by omega
  rw [e4]
  ring

theorem PageSys.ChangesUnder.convert {page page' : ℕ} {i j b : ℕ} {σ σ' : PageSys}
    (h : σ.ChangesUnder page i σ') :
    convertPageToPhsics σ' page' j b = convertPageToPhsics σ page' j b := by
  simp only [convertPageToPhsics, h.beginPageAddr, h.beginAllocAddr]

/-! ## `get_space_in_page` -/

/-- At the class asked for, `get_space_in_page` gives a free node out as a whole. -/
theorem getSpaceInPage_free {σ : PageSys} {page h i : ℕ} (hpage : page ≠ 0) (hi : AtHeight h i)
    (hrep : Rep (σ.node page) (.free : BuddyTree h) i) :
    ∃ σ', getSpaceInPage page (P_4K + h) (P_4K + h) i σ =
        (some (convertPageToPhsics σ page i (P_4K + h) + 0), σ') ∧
      Rep (σ'.node page) (.used : BuddyTree h) i ∧ PageSys.ChangesUnder page i σ σ' := by
  have hlt := hi.lt
  have hat : getSpaceInPage page (P_4K + h) (P_4K + h) i σ =
      takeNode page (P_4K + h) (P_4K + h) i σ := by
    have hb : P_4K + h = (11 + h) + 1 := by simp only [P_4K]; omega
    rw [hb, getSpaceInPage, if_neg (by omega), if_pos (Nat.le_refl _)]
  refine ⟨σ.setNode page i FULL_USED, ?_, ?_, PageSys.changesUnder_setNode σ page _ hi.lt⟩
  · rw [hat, takeNode, if_pos (Pristine.val hrep)]
    exact congrArg (fun a => (some a, _)) (Nat.add_zero _).symm
  · exact PageSys.node_setNode_self _ _ _ _

/-- Above the class asked for, `get_space_in_page` goes on in a half and then
brings the node up to date. -/
theorem getSpaceInPage_succ {σ : PageSys} {page reqSize h i : ℕ} (hpage : page ≠ 0)
    (hreq : reqSize < P_4K + (h + 1)) (hi : AtHeight (h + 1) i) :
    getSpaceInPage page reqSize (P_4K + (h + 1)) i σ =
      match
        (if σ.node page (leftBranch i) ≥ reqSize then
          getSpaceInPage page reqSize (P_4K + h) (leftBranch i) σ
        else getSpaceInPage page reqSize (P_4K + h) (rightBranch i) σ) with
      | (none, σ₁) => (none, σ₁)
      | (some addr, σ₁) =>
          (some addr,
            if σ₁.node page i = reqSize then σ₁.setNode page i HAVE_BUBBLE
            else σ₁.setNode page i
              (if σ₁.node page (leftBranch i) > σ₁.node page (rightBranch i) then
                σ₁.node page (leftBranch i) else σ₁.node page (rightBranch i))) := by
  have hlt := hi.lt
  rw [show P_4K + (h + 1) = (P_4K + h) + 1 from rfl, getSpaceInPage]
  exact (if_neg (by omega)).trans (if_neg (by omega))

/-- Bringing node `i` up to date: its halves represent `l` and `r`, and the node still holds
the summary of `T` from before. -/
theorem rep_split {σ σ₁ : PageSys} {page reqSize h i : ℕ} {T : BuddyTree (h + 1)} {l r : BuddyTree h}
    (hi : AtHeight (h + 1) i) (hval : σ₁.node page i = T.summary P_4K)
    (hl : Rep (σ₁.node page) l (leftBranch i)) (hr : Rep (σ₁.node page) r (rightBranch i))
    (hch : PageSys.ChangesUnder page i σ σ₁) :
    ∃ σ', (if σ₁.node page i = reqSize then σ₁.setNode page i HAVE_BUBBLE
        else σ₁.setNode page i
          (if σ₁.node page (leftBranch i) > σ₁.node page (rightBranch i) then
            σ₁.node page (leftBranch i) else σ₁.node page (rightBranch i))) = σ' ∧
      Rep (σ'.node page) (.split (decide (T.summary P_4K = reqSize)) l r) i ∧
      PageSys.ChangesUnder page i σ σ' := by
  -- whatever is written to node `i`, the halves stay as they are
  have hkeep : ∀ v, Rep ((σ₁.setNode page i v).node page) l (leftBranch i) ∧
      Rep ((σ₁.setNode page i v).node page) r (rightBranch i) := by
    intro v
    refine ⟨hl.congr hi.left fun j hj _ => ?_, hr.congr hi.right fun j hj _ => ?_⟩
    · refine PageSys.node_setNode_ne _ _ _ fun he => ?_
      exact not_under_left hi.pos (he ▸ hj)
    · refine PageSys.node_setNode_ne _ _ _ fun he => ?_
      exact not_under_right (he ▸ hj)
  by_cases heq : T.summary P_4K = reqSize
  · rw [if_pos (hval.trans heq), decide_eq_true heq]
    refine ⟨_, rfl, ⟨?_, hkeep _⟩, hch.trans (PageSys.changesUnder_setNode _ _ _ hi.lt)⟩
    exact PageSys.node_setNode_self _ _ _ _
  · rw [if_neg fun h => heq (hval.symm.trans h), decide_eq_false heq]
    refine ⟨_, rfl, ⟨?_, hkeep _⟩, hch.trans (PageSys.changesUnder_setNode _ _ _ hi.lt)⟩
    rw [PageSys.node_setNode_self, hl.val, hr.val, BuddyTree.summary]
    split <;> omega

/-- `get_space_in_page` refines `BuddyTree.alloc`: called on a node that represents `T`, it answers
the address of the block `T` allocates and leaves the node representing the tree afterwards. -/
theorem getSpaceInPage_spec {σ : PageSys} {page reqSize h i o : ℕ} {T T' : BuddyTree h}
    (hpage : page ≠ 0) (hreq : P_4K ≤ reqSize) (hi : AtHeight h i)
    (hrep : Rep (σ.node page) T i) (ha : T.alloc P_4K reqSize = some (o, T')) :
    ∃ σ', getSpaceInPage page reqSize (P_4K + h) i σ =
        (some (convertPageToPhsics σ page i (P_4K + h) + o), σ') ∧
      Rep (σ'.node page) T' i ∧ PageSys.ChangesUnder page i σ σ' := by
  induction h generalizing i o σ with
  | zero =>
      obtain ⟨rfl, rfl, rfl, rfl⟩ := BuddyTree.alloc_top hreq ha
      exact getSpaceInPage_free hpage hi hrep
  | succ h ih =>
      rcases Nat.lt_or_ge reqSize (P_4K + (h + 1)) with hc | hc
      · rcases BuddyTree.alloc_succ_cases hc ha with ⟨l, r, hlr, hcase⟩
        rcases hrep.children hlr with ⟨hrl, hrr⟩
        rw [getSpaceInPage_succ hpage hc hi, hrl.val]
        rcases hcase with ⟨hle, l', hl', rfl⟩ | ⟨hle, o', r', hr', rfl, rfl⟩
        · -- the left half has room
          rcases ih hi.left hrl hl' with ⟨σ₁, h1, h2, h3⟩
          have hval : σ₁.node page i = T.summary P_4K :=
            (h3.node (not_under_left hi.pos)).trans hrep.val
          have hr' : Rep (σ₁.node page) r (rightBranch i) :=
            hrr.congr hi.right fun j hj _ => h3.node fun hj' => not_under_both hi.pos hj' hj
          rcases rep_split hi hval h2 hr' (h3.mono fun _ => Under.of_left) with ⟨σ', e, hR, hC⟩
          refine ⟨σ', ?_, hR, hC⟩
          rw [if_pos hle, h1, ← convert_left hi, ← e]
        · -- it does not: the right half is taken untested
          rcases ih hi.right hrr hr' with ⟨σ₁, h1, h2, h3⟩
          have hval : σ₁.node page i = T.summary P_4K :=
            (h3.node not_under_right).trans hrep.val
          have hl' : Rep (σ₁.node page) l (leftBranch i) :=
            hrl.congr hi.left fun j hj _ => h3.node fun hj' => not_under_both hi.pos hj hj'
          rcases rep_split hi hval hl' h2 (h3.mono fun _ => Under.of_right) with ⟨σ', e, hR, hC⟩
          refine ⟨σ', ?_, hR, hC⟩
          rw [if_neg hle, h1, convert_right hi, ← e, Nat.add_assoc]
      · obtain ⟨rfl, rfl, rfl, rfl⟩ := BuddyTree.alloc_top hc ha
        exact getSpaceInPage_free hpage hi hrep

/-! ## `free_space_in_page` -/

/-- On a pointer below the end of the node's block `free_space_in_page` returns at once: the test
`phsics_addr + (1 << base_size) > ptr` is the wrong way round. -/
theorem freeSpaceInPage_of_lt {σ : PageSys} {ptr page baseSize i : ℕ}
    (h : ptr < convertPageToPhsics σ page i baseSize + 2 ^ baseSize) :
    freeSpaceInPage ptr page baseSize i σ = σ := by
  cases baseSize with
  | zero => rfl
  | succ b =>
      rw [freeSpaceInPage]
      split
      · rfl
      · exact if_pos h

end OsLab
