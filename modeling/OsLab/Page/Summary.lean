import OsLab.Page.Release

/-! # The roots of the trees can be trusted

`page_alloc` looks at node 1 of a tree only, and `get_space_in_page` goes down into the
right child without a test. `getSpaceTraced` is `get_space_in_page` with the nodes
it is called on: while a root reaches the class asked for, so does every node on
the way down, and only these nodes are written.
-/

namespace OsLab

open Buddy Trace

/-! ## The way down -/

/-- `get_space_in_page`, with the list of the nodes that it is called on. -/
def getSpaceTraced (page reqSize : ℕ) : ℕ → ℕ → PageSys → List ℕ × (Option ℕ × PageSys)
  | 0, index, σ => ([index], getSpaceInPage page reqSize 0 index σ)
  | b + 1, index, σ =>
      if page = 0 ∨ reqSize > b + 1 ∨ index ≥ PAGE_NODE_NUM then ([index], (none, σ))
      else if b + 1 ≤ reqSize then ([index], takeNode page reqSize (b + 1) index σ)
      else
        let left := leftBranch index
        let right := rightBranch index
        let r :=
          if σ.node page left ≥ reqSize then getSpaceTraced page reqSize b left σ
          else getSpaceTraced page reqSize b right σ
        (index :: r.1,
          match r.2 with
          | (none, σ₁) => (none, σ₁)
          | (some addr, σ₁) =>
              (some addr,
                if σ₁.node page index = reqSize then σ₁.setNode page index HAVE_BUBBLE
                else
                  σ₁.setNode page index
                    (if σ₁.node page left > σ₁.node page right then σ₁.node page left
                      else σ₁.node page right)))

/-- Without the list it is `get_space_in_page`. -/
theorem getSpaceTraced_snd (page reqSize b index : ℕ) (σ : PageSys) :
    (getSpaceTraced page reqSize b index σ).2 = getSpaceInPage page reqSize b index σ := by
  induction b generalizing index σ with
  | zero => rfl
  | succ b ih =>
      rw [getSpaceTraced, getSpaceInPage]
      split
      · rfl
      · split
        · rfl
        · by_cases hleft : σ.node page (leftBranch index) ≥ reqSize
          · have hrec := ih (leftBranch index) σ
            simp only [if_pos hleft]
            exact hrec ▸ rfl
          · have hrec := ih (rightBranch index) σ
            simp only [if_neg hleft]
            exact hrec ▸ rfl

/-- A path in a tree that goes down from node `i`. -/
inductive Descent : ℕ → List ℕ → Prop
  | last {i : ℕ} : Descent i [i]
  | left {i : ℕ} {path : List ℕ} : Descent (leftBranch i) path → Descent i (i :: path)
  | right {i : ℕ} {path : List ℕ} : Descent (rightBranch i) path → Descent i (i :: path)

/-- From `σ` to `σ'` only the nodes of `path` change, which goes down from `i`, and they all had at
least the value `reqSize`. -/
structure DescendsTo (page reqSize i : ℕ) (path : List ℕ) (σ σ' : PageSys) : Prop where
  descent : Descent i path
  enough : ∀ j ∈ path, reqSize ≤ σ.node page j
  frame : ∀ a, (∀ j ∈ path, a ≠ page + j) → σ'.mem a = σ.mem a

section Descends

variable {σ : PageSys} {page reqSize h i : ℕ}

/-- At the class asked for the way down ends. -/
theorem getSpaceTraced_free (hpage : page ≠ 0) (hi : AtHeight h i)
    (hrep : Rep (σ.node page) (.free : BuddyTree h) i) :
    let r := getSpaceTraced page (P_4K + h) (P_4K + h) i σ
    DescendsTo page (P_4K + h) i r.1 σ r.2.2 := by
  have hlt := hi.lt
  have hat : getSpaceTraced page (P_4K + h) (P_4K + h) i σ =
      ([i], takeNode page (P_4K + h) (P_4K + h) i σ) := by
    have hb : P_4K + h = (11 + h) + 1 := by simp only [P_4K]; omega
    rw [hb, getSpaceTraced, if_neg (by omega), if_pos (Nat.le_refl _)]
  have hval : σ.node page i = P_4K + h := Pristine.val hrep
  simp only [hat]
  refine ⟨.last, ?_, ?_⟩
  · intro j hj
    obtain rfl := List.mem_singleton.1 hj
    exact hval.ge
  · intro a ha
    rw [takeNode, if_pos hval]
    exact Function.update_of_ne (ha i (List.mem_singleton_self i)) _ _

/-- Above it the way goes on in a half. -/
theorem getSpaceTraced_succ (hpage : page ≠ 0) (hreq : reqSize < P_4K + (h + 1))
    (hi : AtHeight (h + 1) i) {j : ℕ} (hj : j = leftBranch i ∨ j = rightBranch i)
    (hbranch : (if σ.node page (leftBranch i) ≥ reqSize then leftBranch i else rightBranch i) = j)
    {addr : ℕ} {σ₁ : PageSys}
    (hget : getSpaceInPage page reqSize (P_4K + h) j σ = (some addr, σ₁))
    (hsub : DescendsTo page reqSize j (getSpaceTraced page reqSize (P_4K + h) j σ).1 σ σ₁)
    (hval : reqSize ≤ σ.node page i) :
    let r := getSpaceTraced page reqSize (P_4K + (h + 1)) i σ
    DescendsTo page reqSize i r.1 σ r.2.2 := by
  have hlt := hi.lt
  have hr : (if σ.node page (leftBranch i) ≥ reqSize then
      getSpaceTraced page reqSize (P_4K + h) (leftBranch i) σ
      else getSpaceTraced page reqSize (P_4K + h) (rightBranch i) σ) =
        getSpaceTraced page reqSize (P_4K + h) j σ := by
    rw [← hbranch]
    split <;> rfl
  rw [show P_4K + (h + 1) = (P_4K + h) + 1 from rfl, getSpaceTraced, if_neg (by omega),
    if_neg (by omega)]
  simp only [hr, getSpaceTraced_snd, hget]
  refine ⟨?_, ?_, ?_⟩
  · rcases hj with rfl | rfl
    · exact .left hsub.descent
    · exact .right hsub.descent
  · intro k hk
    rcases List.mem_cons.1 hk with rfl | hk
    · exact hval
    · exact hsub.enough k hk
  · intro a ha
    have hne : a ≠ page + i := ha i List.mem_cons_self
    have hold := hsub.frame a fun k hk => ha k (List.mem_cons_of_mem _ hk)
    split
    · exact (Function.update_of_ne hne _ _).trans hold
    · exact (Function.update_of_ne hne _ _).trans hold

/-- On a tree whose node `i` reaches the class asked for, all nodes on the way down do. -/
theorem getSpaceTraced_spec {T : BuddyTree h} (hpage : page ≠ 0) (hreq : P_4K ≤ reqSize)
    (hi : AtHeight h i) (hrep : Rep (σ.node page) T i) (hge : reqSize ≤ T.summary P_4K) :
    let r := getSpaceTraced page reqSize (P_4K + h) i σ
    DescendsTo page reqSize i r.1 σ r.2.2 := by
  have hreq1 : 1 < reqSize := Nat.lt_of_lt_of_le (by decide) hreq
  induction h generalizing i with
  | zero =>
      have hle := BuddyTree.summary_le (m := P_4K) T
      obtain rfl : reqSize = P_4K + 0 := by omega
      obtain rfl := (BuddyTree.summary_eq_iff (by decide)).1 (Nat.le_antisymm hle hge)
      exact getSpaceTraced_free hpage hi hrep
  | succ h ih =>
      rcases Nat.lt_or_ge reqSize (P_4K + (h + 1)) with hc | hc
      · rcases BuddyTree.alloc_isSome hreq hreq1 hge with ⟨o, T', ha⟩
        obtain ⟨l, r, hlr, -⟩ := BuddyTree.alloc_succ_cases hc ha
        rcases hrep.children hlr with ⟨hrl, hrr⟩
        have hval : reqSize ≤ σ.node page i := by rwa [hrep.val]
        by_cases hleft : reqSize ≤ l.summary P_4K
        · rcases BuddyTree.alloc_isSome hreq hreq1 hleft with ⟨o', l', hl'⟩
          obtain ⟨σ₁, hget, -⟩ := getSpaceInPage_spec hpage hreq hi.left hrl hl'
          have hsub := ih hi.left hrl hleft
          simp only [getSpaceTraced_snd, hget] at hsub
          exact getSpaceTraced_succ hpage hc hi (Or.inl rfl) (if_pos (by rwa [hrl.val])) hget hsub
            hval
        · -- the right half is taken untested, but the summary of the node is one of a half
          have hright := (BuddyTree.le_summary_children hlr hreq1 hc hge).resolve_left hleft
          rcases BuddyTree.alloc_isSome hreq hreq1 hright with ⟨o', r', hr'⟩
          obtain ⟨σ₁, hget, -⟩ := getSpaceInPage_spec hpage hreq hi.right hrr hr'
          have hsub := ih hi.right hrr hright
          simp only [getSpaceTraced_snd, hget] at hsub
          exact getSpaceTraced_succ hpage hc hi (Or.inr rfl) (if_neg (by rwa [hrl.val])) hget hsub
            hval
      · have hle := BuddyTree.summary_le (m := P_4K) T
        obtain rfl : reqSize = P_4K + (h + 1) := by omega
        obtain rfl := (BuddyTree.summary_eq_iff (by decide)).1 (Nat.le_antisymm hle hge)
        exact getSpaceTraced_free hpage hi hrep

end Descends

/-! ## Trees that serve and trees that do not -/

/-- `alloc_space_from_page` serves the request from the tree at `page`: it answers an aligned
address that is not `NULL`, meets only nodes on its way that have room, and writes only these. -/
def Serves (σ : PageSys) (page reqSize : ℕ) : Prop :=
  ∃ addr σ', allocSpaceFromPage page reqSize σ = (some addr, σ') ∧ addr ≠ 0 ∧
    2 ^ reqSize ∣ addr ∧
    DescendsTo page reqSize 1 (getSpaceTraced page reqSize P_16M 1 σ).1 σ σ' ∧
    σ' = { σ with mem := σ'.mem }

/-- `page_alloc` leaves the tree of unit `i` as it is, and the lock of the unit free. -/
def PassesOver (σ : PageSys) (i size : ℕ) : Prop :=
  ∃ answer σ', pageAlloc size σ = some (answer, σ') ∧
    (∀ j < PAGE_NODE_NUM, σ'.node (σ.pagePool i) j = σ.node (σ.pagePool i) j) ∧
    σ'.pageLocks i = 0

/-- What node 1 of a tree promises holds, for every unit and every class. -/
def RootsTrusted (s : PageState) : Prop :=
  ∀ i < s.sys.realPageNum, ∀ reqSize, P_4K ≤ reqSize → reqSize ≤ P_16M →
    (reqSize ≤ s.sys.node (s.sys.pagePool i) 1 → Serves s.sys (s.sys.pagePool i) reqSize) ∧
    (s.sys.node (s.sys.pagePool i) 1 < reqSize →
      ∀ size, transPageSize size = reqSize → PassesOver s.sys i size)

section Represents

variable {heap : Area} {σ : PageSys} {T : ℕ → BuddyTree 12} {i : ℕ}

theorem PageSys.Represents.serves (h : σ.Represents heap T) (hi : i < heap.units) {reqSize : ℕ}
    (hreq : P_4K ≤ reqSize) (hge : reqSize ≤ (T i).summary P_4K) :
    Serves σ (σ.pagePool i) reqSize := by
  have hreq1 : 1 < reqSize := Nat.lt_of_lt_of_le (by decide) hreq
  rcases BuddyTree.alloc_isSome hreq hreq1 hge with ⟨o, t', ha⟩
  have hrep := h.rep i hi
  have hpage := heap.treeAddr_ne_zero i
  obtain ⟨σ₁, hget, -⟩ := getSpaceInPage_spec hpage hreq atHeight_root hrep ha
  obtain ⟨σ', halloc, -, hch⟩ := allocSpaceFromPage_spec h.layout hi hrep hreq ha
  have hpos : 0 < heap.unitAddr i := by
    have hbase := heap.alignPtr_pos
    unfold Area.unitAddr Area.base
    omega
  have hpath := getSpaceTraced_spec hpage hreq atHeight_root hrep hge
  simp only [getSpaceTraced_snd] at hpath
  rw [h.layout.pagePool i hi] at halloc ⊢
  have hstate : (getSpaceInPage (heap.treeAddr i) reqSize (P_4K + 12) 1 σ).2 = σ' := by
    have hsame : (allocSpaceFromPage (heap.treeAddr i) reqSize σ).2 =
        (getSpaceInPage (heap.treeAddr i) reqSize P_16M 1 σ).2 := by
      unfold allocSpaceFromPage
      split
      · rename_i heq
        rw [heq]
      · rename_i heq
        rw [heq]
        split <;> rfl
    rw [halloc] at hsame
    exact hsame.symm
  rw [hstate] at hpath
  refine ⟨_, _, halloc, by omega, isAligned_iff.1 (isAligned_block hreq ha), hpath, ?_⟩
  cases σ'
  simp only [PageSys.mk.injEq, and_true]
  exact ⟨hch.beginPageAddr, hch.beginAllocAddr, hch.realPageNum, hch.pagePool, hch.pageLocks⟩

/-- A unit whose root is too small is not the one that serves the request. -/
theorem PageSys.Represents.passesOver (h : σ.Represents heap T) (hi : i < heap.units) {size : ℕ}
    (hlt : (T i).summary P_4K < transPageSize size) : PassesOver σ i size := by
  have hnone : pageAlloc size σ = some (none, σ) → PassesOver σ i size := fun hq =>
    ⟨none, σ, hq, fun _ _ => rfl, h.locks i⟩
  by_cases hno : 2 ^ 24 < size ∨ ∀ j < heap.units, (T j).summary P_4K < transPageSize size
  · exact hnone (pageAlloc_none h hno)
  · push Not at hno
    rcases hno with ⟨hsize, j, hj, hge⟩
    rcases pageAlloc_some h (Nat.not_lt.2 hsize) hj hge with
      ⟨k, hk, hroom, o, t', σ', -, hq, hrep, hmem⟩
    have hki : k ≠ i := by
      rintro rfl
      exact absurd hroom (Nat.not_le.2 hlt)
    refine ⟨_, σ', hq, fun m hm => ?_, hrep.locks i⟩
    rw [h.layout.pagePool i hi]
    exact hmem _ fun m' hm' => heap.treeAddr_add_ne hki.symm hm hm'

end Represents

/-- In every state that calls of `page_alloc` and `page_free` lead to, the roots can be
trusted. -/
theorem rootsTrusted_of_run {heap : Area} {mem : ℕ → ℕ} {h : List (PageState × PageCall)}
    {s : PageState} (hr : PageRun heap mem h s) : RootsTrusted s := by
  rcases hr.inv with ⟨T, hinv, -⟩
  intro i hi reqSize hreq _
  rw [hinv.rep.layout.realPageNum] at hi
  rw [hinv.rep.root hi]
  refine ⟨hinv.rep.serves hi hreq, fun hlt size hsize => ?_⟩
  subst hsize
  exact hinv.rep.passesOver hi hlt

/-- With the first page of the only unit given out, a second page is served from it, and a whole
unit is not. -/
theorem rootsTrusted_firstPage :
    ∃ h s, PageRun oneUnit (fun _ => 0) h s ∧ RootsTrusted s ∧
      Serves s.sys (s.sys.pagePool 0) P_4K ∧ PassesOver s.sys 0 (2 ^ 24) := by
  rcases exists_run_firstPage with ⟨h, s, hr, -, -, hinv⟩
  have htrust := rootsTrusted_of_run hr
  have h0 : 0 < s.sys.realPageNum := by
    rw [hinv.rep.layout.realPageNum]
    decide
  have hroot : s.sys.node (s.sys.pagePool 0) 1 = 23 := by
    rw [hinv.rep.root (by decide), Function.update_self]
    decide
  have h4K := htrust 0 h0 P_4K (Nat.le_refl _) (by decide)
  have h16M := htrust 0 h0 P_16M (by decide) (Nat.le_refl _)
  rw [hroot] at h4K h16M
  exact ⟨h, s, hr, htrust, h4K.1 (by decide), h16M.2 (by decide) _ (by decide)⟩

end OsLab
