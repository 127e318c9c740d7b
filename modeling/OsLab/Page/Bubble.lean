import OsLab.Page.Complete

/-! # Which nodes are marked

As long as nothing is freed, a node that is not in a block given out holds
`HAVE_BUBBLE` exactly if a call of `page_alloc` gave out the only region of its
class that was left in the block of the node (`marked_iff_of_run`): free, and not
in the block of a node marked before. It is the first-fit search that makes the
byte of a node say so, see `BuddyTree.LeftFirst`.
-/

namespace OsLab

open Buddy Trace

/-- The call `page_alloc(size)` gives out `B`, the only region of its class left in the block of
node `j`, of height `k`, of unit `i`. -/
structure TakesLast (s : PageState) (i k j size : ℕ) (B : Block) : Prop where
  given : ∃ σ', pageAlloc size s.sys = some (some B.addr, σ')
  cls : B.cls = transPageSize size
  inside : B.Inside (s.sys.nodeBlock (s.sys.pagePool i) k j)
  only : ∀ C, FreeRegion s i (transPageSize size) C ∧ ¬ InBubble s i C →
    C.Inside (s.sys.nodeBlock (s.sys.pagePool i) k j) → C = B

/-! ## The nodes of one tree -/

section Nodes

variable {σ : PageSys} {page h i k j : ℕ} {v v' : ℕ → ℕ}

theorem nodeBlock_left (hi : AtHeight (h + 1) i) : σ.nodeBlock page h (leftBranch i) =
    ⟨convertPageToPhsics σ page i (P_4K + (h + 1)), P_4K + h⟩ :=
  congrArg (fun a => (⟨a, P_4K + h⟩ : Block)) (convert_left hi)

theorem nodeBlock_right (hi : AtHeight (h + 1) i) : σ.nodeBlock page h (rightBranch i) =
    ⟨convertPageToPhsics σ page i (P_4K + (h + 1)) + 2 ^ (P_4K + h), P_4K + h⟩ :=
  congrArg (fun a => (⟨a, P_4K + h⟩ : Block)) (convert_right hi)

/-- Outside the blocks given out the tree determines the bytes. -/
theorem Rep.val_unique {T : BuddyTree h} (hi : AtHeight h i) (hr : Rep v T i) (hr' : Rep v' T i)
    (hj : AtHeight k j) (hu : Under i j)
    (hvis : ∀ C ∈ T.blocks P_4K (convertPageToPhsics σ page i (P_4K + h)),
      ¬ (σ.nodeBlock page k j).Inside C) : v' j = v j := by
  induction T generalizing i with
  | free =>
      exact ((rep_free.1 hr').val_of_under hi hu hj.lt).trans
        ((rep_free.1 hr).val_of_under hi hu hj.lt).symm
  | used => exact absurd (nodeBlock_inside hi hj hu) (hvis _ (List.mem_singleton.2 rfl))
  | @split h s l r ihl ihr =>
      rcases hu.cases with rfl | hl | hrt
      · exact hr'.1.trans hr.1.symm
      · exact ihl hi.left hr.2.1 hr'.2.1 hl fun C hC => hvis C (mem_blocks_left hi hC)
      · exact ihr hi.right hr.2.2 hr'.2.2 hrt fun C hC => hvis C (mem_blocks_right hi hC)

/-- Node `j` represents `U` before and `U'` after the allocation of class `c` that goes through it,
and `U` has the open blocks of `T` that lie in the block of the node. -/
structure GoesThrough (σ : PageSys) (page : ℕ) (v v' : ℕ → ℕ) (T : BuddyTree h) (i c j : ℕ)
    (U U' : BuddyTree k) : Prop where
  rep : Rep v U j
  rep' : Rep v' U' j
  proper : U.Proper
  leftFirst : U.LeftFirst P_4K
  room : c ≤ U.summary P_4K
  alloc : ∃ o, U.alloc P_4K c = some (o, U')
  opens : ∀ C, C.Inside (σ.nodeBlock page k j) →
    (BuddyTree.Open P_4K T (convertPageToPhsics σ page i (P_4K + h)) C ↔
      BuddyTree.Open P_4K U (convertPageToPhsics σ page j (P_4K + k)) C)

/-- What goes through a node of a half goes through it in the whole. -/
theorem GoesThrough.of_left {T : BuddyTree (h + 1)} {l r : BuddyTree h} {c : ℕ} {U U' : BuddyTree k}
    (hU : GoesThrough σ page v v' l (leftBranch i) c j U U') (hi : AtHeight (h + 1) i)
    (hj : AtHeight k j) (hu : Under (leftBranch i) j) (hlr : T.children = some (l, r))
    (hT : 1 < T.summary P_4K) : GoesThrough σ page v v' T i c j U U' := by
  refine { hU with opens := fun C hC => ?_ }
  have hin := hC.trans (nodeBlock_inside hi.left hj hu)
  rw [nodeBlock_left hi] at hin
  rw [BuddyTree.open_left_iff hlr (BuddyTree.ne_sealed hT) hin, ← hU.opens C hC, convert_left hi]

theorem GoesThrough.of_right {T : BuddyTree (h + 1)} {l r : BuddyTree h} {c : ℕ}
    {U U' : BuddyTree k} (hU : GoesThrough σ page v v' r (rightBranch i) c j U U')
    (hi : AtHeight (h + 1) i) (hj : AtHeight k j) (hu : Under (rightBranch i) j)
    (hlr : T.children = some (l, r)) (hT : 1 < T.summary P_4K) :
    GoesThrough σ page v v' T i c j U U' := by
  refine { hU with opens := fun C hC => ?_ }
  have hin := hC.trans (nodeBlock_inside hi.right hj hu)
  rw [nodeBlock_right hi] at hin
  rw [BuddyTree.open_right_iff hlr (BuddyTree.ne_sealed hT) hin, ← hU.opens C hC, convert_right hi]

/-- An allocation goes through the nodes whose blocks contain the one it gives out, and leaves the
other ones as they are. -/
theorem Rep.alloc_under {T T' : BuddyTree h} {c o : ℕ} (hc : P_4K ≤ c) (hi : AtHeight h i)
    (hr : Rep v T i) (hr' : Rep v' T' i) (hp : T.Proper) (hf : T.LeftFirst P_4K)
    (hs : c ≤ T.summary P_4K) (ha : T.alloc P_4K c = some (o, T')) (hj : AtHeight k j)
    (hu : Under i j)
    (hvis : ∀ C ∈ T'.blocks P_4K (convertPageToPhsics σ page i (P_4K + h)),
      ¬ (σ.nodeBlock page k j).Inside C) :
    (¬ (⟨convertPageToPhsics σ page i (P_4K + h) + o, c⟩ : Block).Inside (σ.nodeBlock page k j) ∧
      v' j = v j) ∨
    ((⟨convertPageToPhsics σ page i (P_4K + h) + o, c⟩ : Block).Inside (σ.nodeBlock page k j) ∧
      c < P_4K + k ∧ ∃ U U' : BuddyTree k, GoesThrough σ page v v' T i c j U U') := by
  have hc1 : 1 < c := Nat.lt_of_lt_of_le (by decide) hc
  induction h generalizing i o with
  | zero =>
      obtain ⟨-, -, -, rfl⟩ := BuddyTree.alloc_top hc ha
      exact absurd (nodeBlock_inside hi hj hu) (hvis _ (List.mem_singleton.2 rfl))
  | succ h ih =>
      rcases Nat.lt_or_ge c (P_4K + (h + 1)) with hlt | hge
      · have hT : 1 < T.summary P_4K := Nat.lt_of_lt_of_le hc1 hs
        rcases hu.cases with rfl | hl | hrt
        · -- the node itself
          obtain rfl := hi.unique hj
          exact Or.inr ⟨BuddyTree.inside_alloc hc ha _, hlt, T, T', hr, hr', hp, hf, hs, ⟨o, ha⟩,
            fun _ _ => Iff.rfl⟩
        · -- a node in the left half
          obtain ⟨l, r, hlr, ⟨hle, l', hl', rfl⟩ | ⟨-, o', r', hr'', rfl, rfl⟩⟩ :=
            BuddyTree.alloc_succ_cases hlt ha
          · have hih := ih hi.left (hr.children hlr).1 hr'.2.1 (hp.children hlr).1
              (hf.children hlr).2.1 hle hl' hl fun C hC => hvis C (mem_blocks_left hi hC)
            rw [convert_left hi] at hih
            refine hih.imp_right ?_
            rintro ⟨hin, hk, U, U', hU⟩
            exact ⟨hin, hk, U, U', hU.of_left hi hj hl hlr hT⟩
          · -- the search goes to the right
            have hvisl : ∀ C ∈ l.blocks P_4K (convertPageToPhsics σ page (leftBranch i) (P_4K + h)),
                ¬ (σ.nodeBlock page k j).Inside C := fun C hC => hvis C (mem_blocks_left hi hC)
            refine Or.inl ⟨fun hin => ?_, Rep.val_unique hi.left (hr.children hlr).1 hr'.2.1 hj hl hvisl⟩
            have hBl := hin.trans (nodeBlock_inside hi.left hj hl)
            have hBr := BuddyTree.inside_alloc hc hr''
              (convertPageToPhsics σ page i (P_4K + (h + 1)) + 2 ^ (P_4K + h))
            rw [nodeBlock_left hi] at hBl
            rw [Nat.add_assoc] at hBr
            exact (Block.apart_of_halves hBl hBr).ne rfl
        · -- a node in the right half
          obtain ⟨l, r, hlr, ⟨-, l', hl', rfl⟩ | ⟨hnle, o', r', hr'', rfl, rfl⟩⟩ :=
            BuddyTree.alloc_succ_cases hlt ha
          · -- the search goes to the left
            have hvisr : ∀ C ∈ r.blocks P_4K
                (convertPageToPhsics σ page (rightBranch i) (P_4K + h)),
                ¬ (σ.nodeBlock page k j).Inside C := fun C hC => hvis C (mem_blocks_right hi hC)
            refine Or.inl ⟨fun hin => ?_,
              Rep.val_unique hi.right (hr.children hlr).2 hr'.2.2 hj hrt hvisr⟩
            have hBr := hin.trans (nodeBlock_inside hi.right hj hrt)
            rw [nodeBlock_right hi] at hBr
            exact (Block.apart_of_halves (BuddyTree.inside_alloc hc hl' _) hBr).ne rfl
          · have hle := (BuddyTree.le_summary_children hlr hc1 hlt hs).resolve_left hnle
            have hih := ih hi.right (hr.children hlr).2 hr'.2.2 (hp.children hlr).2
              (hf.children hlr).2.2 hle hr'' hrt fun C hC => hvis C (mem_blocks_right hi hC)
            rw [convert_right hi, Nat.add_assoc] at hih
            refine hih.imp_right ?_
            rintro ⟨hin, hk, U, U', hU⟩
            exact ⟨hin, hk, U, U', hU.of_right hi hj hrt hlr hT⟩
      · obtain ⟨-, -, -, rfl⟩ := BuddyTree.alloc_top hge ha
        exact absurd (nodeBlock_inside hi hj hu) (hvis _ (List.mem_singleton.2 rfl))

/-- It marks the node exactly if it takes the last open block of the class. -/
theorem GoesThrough.marked_iff {T : BuddyTree h} {c : ℕ} {U U' : BuddyTree k} {B : Block}
    (hU : GoesThrough σ page v v' T i c j U U') (hc : P_4K ≤ c) (hk : c < P_4K + k)
    (hdvd : 2 ^ (P_4K + k) ∣ convertPageToPhsics σ page j (P_4K + k)) (hcls : B.cls = c)
    (hB : BuddyTree.Open P_4K U (convertPageToPhsics σ page j (P_4K + k)) B) :
    v' j = HAVE_BUBBLE ↔
      ∀ C : Block, C.cls = c → BuddyTree.Open P_4K U (convertPageToPhsics σ page j (P_4K + k)) C →
        C = B := by
  subst hcls
  rcases hU.alloc with ⟨o, ha⟩
  rw [hU.rep'.val, ← hU.leftFirst.summary_eq_iff hU.proper (by decide) hdvd hc hB]
  exact BuddyTree.summary_alloc_eq_one_iff hc (Nat.lt_of_lt_of_le (by decide) hc) hk hU.room ha

end Nodes

/-! ## A call of `page_alloc` -/

theorem PageSys.Layout.nodeBlock_eq {heap : Area} {σ σ' : PageSys} (h : σ.Layout heap)
    (h' : σ'.Layout heap) (page k j : ℕ) : σ'.nodeBlock page k j = σ.nodeBlock page k j := by
  simp only [PageSys.nodeBlock, convertPageToPhsics, h.beginPageAddr, h.beginAllocAddr,
    h'.beginPageAddr, h'.beginAllocAddr]

theorem PageSys.Layout.nodesSound {heap : Area} {σ : PageSys} {i : ℕ} (h : σ.Layout heap)
    (hi : i < heap.units) : NodesSound σ i := by
  refine OsLab.nodesSound ?_ ?_
  · rw [h.pagePool i hi, h.beginPageAddr, Area.treeAddr]
  · rw [h.beginAllocAddr]
    exact Nat.dvd_add (dvd_alignPtr _ _) dvd_rfl

section Step

variable {heap : Area} {T : ℕ → BuddyTree 12} {s s' : PageState} {i k j size : ℕ}

/-- There is one block that a call gives out. -/
theorem TakesLast.eq {B : Block} {p : ℕ} {σ' : PageSys} (h : TakesLast s i k j size B)
    (hsome : pageAlloc size s.sys = some (some p, σ')) : B = ⟨p, transPageSize size⟩ := by
  rcases h with ⟨⟨σ'', hB⟩, hcls, -, -⟩
  cases B
  cases hcls
  cases hsome.symm.trans hB
  rfl

/-- The blocks that the tree is open for are the regions that `TakesLast` is about. -/
theorem AllocInv.takesLast_iff (h : AllocInv heap T s) (hi : i < heap.units) {p : ℕ} {σ' : PageSys}
    {v v' : ℕ → ℕ} {U U' : BuddyTree k} (hsome : pageAlloc size s.sys = some (some p, σ'))
    (hin : (⟨p, transPageSize size⟩ : Block).Inside (s.sys.nodeBlock (heap.treeAddr i) k j))
    (hU : GoesThrough s.sys (heap.treeAddr i) v v' (T i) 1 (transPageSize size) j U U') :
    (∀ C : Block, C.cls = transPageSize size →
      BuddyTree.Open P_4K U (convertPageToPhsics s.sys (heap.treeAddr i) j (P_4K + k)) C →
        C = ⟨p, transPageSize size⟩) ↔ ∃ B, TakesLast s i k j size B := by
  have hc := P_4K_le_transPageSize size
  have hpool := h.inv.rep.layout.pagePool i hi
  have hopens := hU.opens
  rw [show convertPageToPhsics s.sys (heap.treeAddr i) 1 (P_4K + 12) = heap.unitAddr i from
    convert_root h.inv.rep.layout i] at hopens
  constructor
  · intro honly
    refine ⟨_, ⟨σ', hsome⟩, rfl, by rwa [hpool], fun C hC hCin => ?_⟩
    rw [hpool] at hCin
    rcases (h.open_iff hi hc).1 hC with ⟨hCc, hCo⟩
    exact honly C hCc ((hopens C hCin).1 hCo)
  · rintro ⟨B, hB⟩ C hCc hCo
    rw [← hB.eq hsome]
    have hCin : C.Inside (s.sys.nodeBlock (heap.treeAddr i) k j) := hCo.inside
    refine hB.only C ((h.open_iff hi hc).2 ⟨hCc, (hopens C hCin).2 hCo⟩) ?_
    rwa [hpool]

/-- A call marks exactly the nodes in whose blocks it takes the last region of its class. -/
theorem AllocInv.marked_iff (h : AllocInv heap T s) (hst : PageStep s (.alloc size) s')
    (hi : i < heap.units) (hj : AtHeight k j)
    (hvis : ∀ b ∈ s'.live, ¬ (s'.sys.nodeBlock (s'.sys.pagePool i) k j).Inside b.block) :
    s'.sys.node (s'.sys.pagePool i) j = HAVE_BUBBLE ↔
      s.sys.node (s.sys.pagePool i) j = HAVE_BUBBLE ∨ ∃ B, TakesLast s i k j size B := by
  rcases h.alloc_cases hst with ⟨rfl, hnull⟩ | ⟨u, hu, hge, o, t', ha, ⟨σ', hsome⟩, -, h'⟩
  · -- `NULL`
    refine (or_iff_left ?_).symm
    rintro ⟨B, ⟨σ', hB⟩, -⟩
    cases hnull.symm.trans hB
  · have hlayout := h.inv.rep.layout
    have hc := P_4K_le_transPageSize size
    have hpool := hlayout.pagePool i hi
    have hroot : convertPageToPhsics s.sys (heap.treeAddr i) 1 (P_4K + 12) = heap.unitAddr i :=
      convert_root hlayout i
    rw [h'.inv.rep.layout.pagePool i hi, hlayout.nodeBlock_eq h'.inv.rep.layout] at hvis
    rw [h'.inv.rep.layout.pagePool i hi, hpool]
    have hvis' : ∀ C ∈ (Function.update T u t' i).blocks P_4K
        (convertPageToPhsics s.sys (heap.treeAddr i) 1 (P_4K + 12)),
        ¬ (s.sys.nodeBlock (heap.treeAddr i) k j).Inside C := by
      intro C hC
      rw [hroot] at hC
      rcases h'.live C ⟨i, hi, hC⟩ with ⟨b, hb, rfl⟩
      exact hvis b hb
    have hrep := h.inv.rep.rep i hi
    have hrep' := h'.inv.rep.rep i hi
    by_cases hui : i = u
    · subst hui
      rw [Function.update_self] at hvis' hrep'
      have hunder := Rep.alloc_under hc atHeight_root hrep hrep' (h.inv.rep.proper i hi)
        (h.leftFirst i hi) hge ha hj (under_root hj.pos) hvis'
      rw [hroot] at hunder
      rcases hunder with ⟨hout, heq⟩ | ⟨hin, hk, U, U', hU⟩
      · -- the search does not come to the node
        rw [heq]
        refine (or_iff_left ?_).symm
        rintro ⟨B, hB⟩
        have hinside := hB.inside
        rw [hpool, hB.eq hsome] at hinside
        exact hout hinside
      · -- it goes through the node, which was not marked
        have hdvd := (hlayout.nodesSound hi).aligned k j hj
        rw [hpool] at hdvd
        have hopen := BuddyTree.open_alloc hc (Nat.lt_of_lt_of_le (by decide) hc)
          (heap.dvd_unitAddr i) hge ha
        rw [← hroot] at hopen hsome hin
        rw [hU.marked_iff hc hk hdvd rfl ((hU.opens _ hin).1 hopen), h.takesLast_iff hi hsome hin hU,
          or_iff_right]
        rw [hU.rep.val]
        have hroom := hU.room
        simp only [HAVE_BUBBLE, P_4K] at hroom hc ⊢
        omega
    · -- the block lies in another unit
      rw [Function.update_of_ne hui] at hvis' hrep'
      rw [Rep.val_unique atHeight_root hrep hrep' hj (under_root hj.pos) hvis']
      refine (or_iff_left ?_).symm
      rintro ⟨B, hB⟩
      have hinside := hB.inside.trans (by
        rw [hpool]
        exact nodeBlock_inside atHeight_root hj (under_root hj.pos))
      rw [hB.eq hsome, PageSys.nodeBlock, hroot] at hinside
      have hapart : (⟨heap.unitAddr i, P_4K + 12⟩ : Block).Apart ⟨heap.unitAddr u, P_4K + 12⟩ :=
        unitAddr_apart heap hui
      exact (hinside.apart hapart).not_inside (BuddyTree.inside_alloc hc ha _)

end Step

/-- Without frees, a node that is not in a block given out holds `HAVE_BUBBLE` exactly if a call
of `page_alloc` took the last region of its class in the block of the node. -/
theorem marked_iff_of_run {heap : Area} {mem : ℕ → ℕ} {h : List (PageState × PageCall)}
    {s : PageState} (hr : PageRun heap mem h s) (hno : NoFrees h) {i k j : ℕ}
    (hi : i < s.sys.realPageNum) (hj : AtHeight k j)
    (hvis : ∀ b ∈ s.live, ¬ (s.sys.nodeBlock (s.sys.pagePool i) k j).Inside b.block) :
    s.sys.node (s.sys.pagePool i) j = HAVE_BUBBLE ↔
      ∃ t size B, (t, PageCall.alloc size) ∈ h ∧ TakesLast t i k j size B := by
  induction hr with
  | start hs =>
      subst hs
      have hinv := pageInv_start heap mem
      rw [hinv.rep.layout.realPageNum] at hi
      have hval := (rep_free.1 (hinv.rep.rep i hi)).val_of_under atHeight_root
        (under_root hj.pos) hj.lt
      rw [hinv.rep.layout.pagePool i hi, hval, hj.class_eq]
      refine iff_of_false ?_ ?_
      · simp only [HAVE_BUBBLE, P_4K]
        omega
      · rintro ⟨_, _, _, hmem, -⟩
        exact absurd hmem List.not_mem_nil
  | @snoc h s s' e hr hst ih =>
      rcases allSteps_cons.1 hno with ⟨⟨size, rfl⟩, hno'⟩
      rcases PageRun.allocInv hr hno' with ⟨T, hA⟩
      obtain ⟨T', hA', hlive⟩ : ∃ T', AllocInv heap T' s' ∧ ∀ b ∈ s.live, b ∈ s'.live := by
        rcases hA.alloc_cases hst with ⟨rfl, -⟩ | ⟨_, _, _, _, _, _, _, hl, hA'⟩
        · exact ⟨T, hA, fun _ => id⟩
        · exact ⟨_, hA', fun b hb => hl ▸ List.mem_cons_of_mem _ hb⟩
      have hlayout := hA.inv.rep.layout
      have hlayout' := hA'.inv.rep.layout
      rw [hlayout'.realPageNum] at hi
      rw [hA.marked_iff hst hi hj hvis]
      rw [hlayout'.pagePool i hi, hlayout.nodeBlock_eq hlayout'] at hvis
      rw [ih hno' (by rwa [hlayout.realPageNum]) fun b hb => by
        rw [hlayout.pagePool i hi]
        exact hvis b (hlive b hb)]
      constructor
      · rintro (⟨t, size', B, hmem, hB⟩ | ⟨B, hB⟩)
        · exact ⟨t, size', B, List.mem_cons_of_mem _ hmem, hB⟩
        · exact ⟨s, size, B, List.mem_cons_self, hB⟩
      · rintro ⟨t, size', B, hmem, hB⟩
        rcases List.mem_cons.1 hmem with heq | hmem
        · cases heq
          exact Or.inr ⟨B, hB⟩
        · exact Or.inl ⟨t, size', B, hmem, hB⟩

end OsLab
