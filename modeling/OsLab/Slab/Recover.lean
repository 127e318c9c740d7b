import OsLab.Slab.StepsKeep

/-! # A recovered slab is left alone, unless somebody is about to use it

`slab_alloc` releases the lock of a slab and then reads its `append` once more,
and `recover_slab` walks the list without locks and then try-locks a slab it no
longer knows to be in use. Between these steps another CPU can unlink that slab
and pass it to `page_free`. When nobody is at such a place (`Unobserved`), a
recovered slab is never touched again.
-/

namespace OsLab

open Buddy PtrList Trace

variable {n : ℕ} {s s' : SlabConc} {L : ℕ → ℕ → List ℕ} {c d cpu k S N b : ℕ}

/-- A slab is passed to `page_free` only when no other CPU is about to use it without its lock. -/
def Unobserved (n : ℕ) (s : SlabConc) : SlabEvent → Prop
  | .step c => ∀ S ∈ (s.pc c).returns, ∀ d < n, d ≠ c → (s.pc d).cursor ≠ some S
  | _ => True

instance (n : ℕ) (s : SlabConc) (e : SlabEvent) : Decidable (Unobserved n s e) := by
  cases e <;> unfold Unobserved <;> infer_instance

/-- What is promised of a run: a slab that was returned is not touched, has no live block, and is
on no list. -/
structure RecoverSound (h : List (SlabConc × SlabEvent)) (s : SlabConc) : Prop where
  untouched : ∀ t c, (t, SlabEvent.step c) ∈ h → ∀ S, (t.pc c).touches = some S →
    t.returned S = false
  dead : ∀ t c, (t, SlabEvent.step c) ∈ h → ∀ S, (t.pc c).returns = some S →
    ∀ b ∈ t.live, slabOf b ≠ S
  unlinked : AllStates (fun t => ∀ cpu k S, Visits (fun S => (t.slab S).append) (t.head cpu k) S →
    t.returned S = false) h s

/-! ## Steps -/

/-- The invariant after a step of a CPU. -/
theorem StepsInv.step (h : StepsInv n s L) (hn : c < n) (hno : Unobserved n s (.step c))
    (hst : slabStep s c = some s') : ∃ L', StepsInv n s' L' := by
  have hpc := h.pcs c
  cases hp : s.pc c <;> rw [hp] at hpc
  case putBlock b => exact ⟨L, h.put hn hp hst⟩
  all_goals simp only [slabStep, hp, reduceCtorEq, Option.some.injEq] at hst
  -- `slab_alloc`
  case readHead k =>
    split at hst <;> (rename_i hhead; obtain rfl := Option.some.inj hst)
    · exact ⟨L, h.goto hn hp rfl (by simp [SlabPc.holds]) rfl (by simp [SlabPc.block]) hpc⟩
    · exact ⟨L, h.goto hn hp rfl (by simp [SlabPc.holds]) rfl (by simp [SlabPc.block]) hhead⟩
  case lockHead k S | lockNew k S =>
    subst hst
    have hS := h.mem_of_head hpc
    exact ⟨L, h.acquire hn hp rfl hS (by simp [SlabPc.holds]) rfl (by simp [SlabPc.block]) hS⟩
  case readCount k S =>
    split at hst <;> obtain rfl := Option.some.inj hst <;>
      exact ⟨L, h.goto hn hp rfl (by simp [SlabPc.holds]) rfl (by simp [SlabPc.block]) hpc⟩
  case testAppend k S =>
    split at hst <;> obtain rfl := Option.some.inj hst <;>
      exact ⟨L, h.goto hn hp rfl (by simp [SlabPc.holds]) rfl (by simp [SlabPc.block]) hpc⟩
  case unlockLast k S =>
    subst hst
    exact ⟨L, h.release hn hp rfl (by simp [SlabPc.holds]) (by simp [SlabPc.holds]) rfl rfl
      (h.slabs c k S hpc).class_lt⟩
  case readAppend k S =>
    rcases Option.map_eq_some_iff.1 hst with ⟨N, hN, rfl⟩
    exact ⟨L, h.goto hn hp rfl (by simp [SlabPc.holds]) rfl (by simp [SlabPc.block]) ⟨hpc, hN⟩⟩
  case lockNext k S N =>
    subst hst
    have hN := h.mem_of_append hpc.1 hpc.2
    exact ⟨L, h.acquire hn hp rfl hN (by simp [SlabPc.holds]) rfl (by simp [SlabPc.block]) hpc⟩
  case unlockSlab k S N =>
    subst hst
    have hN := h.mem_of_append hpc.1 hpc.2
    have hne : N ≠ S := (h.chain c k).next_ne hpc.1 hpc.2
    exact ⟨L, h.release hn hp rfl (by simp [SlabPc.holds]) (by simp [SlabPc.holds, hne]) rfl rfl
      ⟨Or.inl hpc.1, hpc.2, hN⟩⟩
  case advance k S N =>
    -- the link read again still leads to the slab whose lock is held
    rcases Option.map_eq_some_iff.1 hst with ⟨M, hM, rfl⟩
    obtain rfl := Option.some.inj (hpc.2.1.symm.trans hM)
    exact ⟨L, h.goto hn hp rfl (by simp [SlabPc.holds]) rfl (by simp [SlabPc.block]) hpc.2.2⟩
  -- `slab_init` and the use of the new slab
  case format k S =>
    subst hst
    exact ⟨L, h.format hn hp⟩
  case linkNew k S =>
    subst hst
    exact ⟨L, h.linkNew hn hp⟩
  case pushNew k S =>
    subst hst
    exact ⟨_, h.pushNew hn hp⟩
  case testNew k S =>
    split at hst <;> obtain rfl := Option.some.inj hst
    · exact ⟨L, h.goto hn hp rfl (by simp [SlabPc.holds]) rfl (by simp [SlabPc.block]) ⟨c, k, hpc⟩⟩
    · exact ⟨L, h.goto hn hp rfl (by simp [SlabPc.holds]) rfl (by simp [SlabPc.block]) hpc⟩
  case takeBlock k S =>
    split at hst
    · obtain rfl := Option.some.inj hst
      exact ⟨L, h.goto hn hp rfl (by simp [SlabPc.holds]) rfl (by simp [SlabPc.block]) ⟨c, k, hpc⟩⟩
    · split at hst
      · cases hst
      · rename_i hfree
        obtain rfl := Option.some.inj hst
        exact ⟨L, h.take hn hp hfree⟩
  case unlockTaken S b =>
    subst hst
    exact ⟨L, h.release hn hp rfl (by simp [SlabPc.holds]) (by simp [SlabPc.holds]) rfl rfl trivial⟩
  -- `slab_free`
  case lockOwn b =>
    subst hst
    rcases h.live b hpc with ⟨cpu, k, hS⟩
    exact ⟨L, h.acquire hn hp rfl hS (by simp [SlabPc.holds]) rfl (by simp [SlabPc.block]) hpc⟩
  case unlockOwn S | unlockPrev S =>
    subst hst
    exact ⟨L, h.release hn hp rfl (by simp [SlabPc.holds]) (by simp [SlabPc.holds]) rfl rfl trivial⟩
  -- `recover_slab`
  case tryOwn S =>
    rcases hpc with ⟨cpu, k, hS, hfull⟩
    have hlock := h.locked c S (by simp [hp, SlabPc.holds])
    split at hst
    · obtain rfl := Option.some.inj hst
      exact ⟨L, h.goto hn hp rfl (by simp [SlabPc.holds]) rfl (by simp [SlabPc.block]) ⟨cpu, k, hS⟩⟩
    · obtain rfl := Option.some.inj hst
      rw [SlabConc.attempt, if_pos hlock]
      exact ⟨L, h.goto hn hp rfl (by simp [SlabPc.holds]) rfl (by simp [SlabPc.block])
        ⟨cpu, k, hS, hfull⟩⟩
  case recoverHead S =>
    rcases hpc with ⟨cpu, k, hS, hfull⟩
    rcases Option.map_eq_some_iff.1 hst with ⟨H, hH, rfl⟩
    have hg := h.slabs cpu k S hS
    rw [hg.cpuId, hg.type, show k + S_8B - SLAB_SIZE_OFFSET = k from Nat.add_sub_cancel _ _] at hH
    split
    · exact ⟨L, h.goto hn hp rfl (by simp [SlabPc.holds]) rfl (by simp [SlabPc.block]) ⟨cpu, k, hS⟩⟩
    · exact ⟨L, h.goto hn hp rfl (by simp [SlabPc.holds]) rfl (by simp [SlabPc.block])
        ⟨cpu, k, hS, hfull, Or.inl (h.mem_of_head hH)⟩⟩
  case walk S prev =>
    rcases hpc with ⟨cpu, k, hS, hfull, hprev⟩
    split at hst
    · obtain rfl := Option.some.inj hst
      exact ⟨L, h.goto hn hp rfl (by simp [SlabPc.holds]) rfl (by simp [SlabPc.block]) ⟨cpu, k, hS⟩⟩
    · rename_i R hR
      split at hst <;> obtain rfl := Option.some.inj hst
      · rename_i hRS
        subst hRS
        exact ⟨L, h.goto hn hp rfl (by simp [SlabPc.holds]) rfl (by simp [SlabPc.block])
          ⟨cpu, k, hS, hfull, hprev, hR⟩⟩
      · exact ⟨L, h.goto hn hp rfl (by simp [SlabPc.holds]) rfl (by simp [SlabPc.block])
          ⟨cpu, k, hS, hfull, Or.inl (h.mem_of_cursor hprev hR)⟩⟩
  case tryPrev S prev =>
    rcases hpc with ⟨cpu, k, hS, hfull, hprev, happ⟩
    subst hst
    rw [SlabConc.attempt]
    split
    · exact ⟨L, h.goto hn hp rfl (by simp [SlabPc.holds]) rfl (by simp [SlabPc.block]) ⟨cpu, k, hS⟩⟩
    · -- nobody returns a slab whose lock is free
      rename_i hfree
      have hlisted := h.listed_of_unlocked hprev (Bool.eq_false_iff.2 hfree)
      exact ⟨L, h.lock hn hp rfl hlisted (Bool.eq_false_iff.2 hfree) (by simp [SlabPc.holds]) rfl
        (by simp [SlabPc.block]) ⟨cpu, k, hS, hfull, hlisted, happ⟩⟩
  case readLink S prev =>
    rcases hpc with ⟨cpu, k, hS, hfull, hprev, happ⟩
    subst hst
    exact ⟨L, h.goto hn hp rfl (by simp [SlabPc.holds]) rfl (by simp [SlabPc.block])
      ⟨cpu, k, hS, hfull, hprev, happ, rfl⟩⟩
  case unlink S prev next =>
    subst hst
    exact h.unlink hn hp
  case giveBack S prev =>
    subst hst
    exact ⟨L, h.giveBack hn hp (hno S (by rw [hp]; rfl))⟩

theorem StepsInv.start (hs : SlabStart s) : StepsInv n s fun cpu k => (s.head cpu k).toList := by
  have hlisted : ∀ {cpu k S}, S ∈ (s.head cpu k).toList → s.head cpu k = some S := fun hS =>
    Option.mem_toList.1 hS
  refine ⟨fun c _ => hs.idle c, ?_, ?_, ?_, ?_, ?_, ?_, ?_, ?_⟩
  · intro cpu k
    cases hhead : s.head cpu k with
    | none => exact .nil
    | some S =>
        refine .cons ?_
        rw [(hs.heads cpu k S hhead).1]
        exact .nil
  · intro cpu k S hS
    rcases hs.heads cpu k S (hlisted hS) with ⟨hrec, hpages, hdvd, hk⟩
    refine ⟨hk, hdvd, ?_, ?_, ?_, ?_, ?_, hpages, hs.returned S⟩ <;> rw [hrec]
    · rfl
    · rfl
    · rfl
    · simp [freshSlab, length_slabBlocks]
    · rw [hs.live, List.filter_nil, List.append_nil]
      exact List.reverse_perm _
  · simp [hs.live]
  · intro c S hS
    simp [hs.idle c, SlabPc.owns, SlabPc.holds, SlabPc.making] at hS
  · intro c d S hS
    simp [hs.idle c, SlabPc.owns, SlabPc.holds, SlabPc.making] at hS
  · intro c S hS
    simp [hs.idle c, SlabPc.holds] at hS
  · intro c d b hb
    simp [hs.idle c, SlabPc.block] at hb
  · intro c
    rw [hs.idle c]
    trivial

/-- The invariant after any event. -/
theorem StepsInv.exec (h : StepsInv n s L) {e : SlabEvent} (hno : Unobserved n s e)
    (hst : slabExec n s e = some s') : ∃ L', StepsInv n s' L' := by
  cases e <;> simp only [slabExec] at hst
  case callAlloc c k =>
    split at hst
    · rename_i hcall
      obtain rfl := Option.some.inj hst
      exact ⟨L, h.goto hcall.1 hcall.2.1 rfl (by simp [SlabPc.holds]) rfl (by simp [SlabPc.block])
        hcall.2.2⟩
    · cases hst
  case callFree c b =>
    split at hst
    · rename_i hcall
      rcases hcall with ⟨hn, hidle, hb, halone⟩
      obtain rfl := Option.some.inj hst
      -- no other call is about the same block: only CPUs below `n` run
      refine ⟨L, h.goto hn hidle rfl (by simp [SlabPc.holds]) rfl (fun b' hb' d _ hd => ?_) hb⟩
      simp only [SlabPc.block, Option.some.injEq] at hb'
      subst hb'
      by_cases hdn : d < n
      · exact halone d hdn hd
      · rw [h.idle d (by omega)] at hd
        cases hd
    · cases hst
  case step c =>
    split at hst
    · rename_i hn
      exact h.step hn hno hst
    · cases hst
  case page c answer =>
    have hn : ∀ {k}, s.pc c = .newPage k → c < n := by
      intro k hp
      refine Nat.lt_of_not_le fun hle => ?_
      rw [h.idle c hle] at hp
      cases hp
    split at hst
    · rename_i k hp
      obtain rfl := Option.some.inj hst
      exact ⟨L, h.goto (hn hp) hp rfl (by simp [SlabPc.holds]) rfl (by simp [SlabPc.block]) trivial⟩
    · rename_i k S hp
      split at hst
      · rename_i hpage
        obtain rfl := Option.some.inj hst
        exact ⟨L, h.page (hn hp) hp hpage.1 hpage.2⟩
      · cases hst
    · cases hst
  -- the events outside the slabs are about other pages than theirs
  case userTake S =>
    split at hst
    · rename_i hfree
      obtain rfl := Option.some.inj hst
      refine ⟨L, h.outside fun T hT => ⟨rfl, ?_⟩⟩
      rwa [Function.update_of_ne]
      rintro rfl
      rw [hT] at hfree
      cases hfree
    · cases hst
  case userWrite S r =>
    split at hst
    · rename_i huser
      obtain rfl := Option.some.inj hst
      refine ⟨L, h.outside fun T hT => ⟨Function.update_of_ne ?_ _ _, hT⟩⟩
      rintro rfl
      rw [hT] at huser
      cases huser
    · cases hst
  case userGive S =>
    split at hst
    · rename_i huser
      obtain rfl := Option.some.inj hst
      refine ⟨L, h.outside fun T hT => ⟨rfl, ?_⟩⟩
      rwa [Function.update_of_ne]
      rintro rfl
      rw [hT] at huser
      cases huser
    · cases hst

/-! ## Runs -/

variable {hist : List (SlabConc × SlabEvent)}

theorem SlabRun.inv (hr : SlabRun n hist s) (hno : AllSteps (Unobserved n) hist) :
    AllStates (fun t => ∃ L, StepsInv n t L) hist s :=
  Run.invariant_of_allSteps (fun _ hs => ⟨_, StepsInv.start hs⟩)
    (fun _ _ _ hinv hc hst => hinv.elim fun _ h => h.exec hc hst) hr hno

/-- **A recovered slab is never touched again**, in every run of any number of CPUs in which no
slab is passed to `page_free` while another CPU is about to use it without its lock. -/
theorem recoverSound_of_run (hr : SlabRun n hist s) (hno : AllSteps (Unobserved n) hist) :
    RecoverSound hist s := by
  rcases hr.inv hno with ⟨hsteps, hlast⟩
  have hunlinked : ∀ {t}, (∃ L, StepsInv n t L) → ∀ cpu k S,
      Visits (fun S => (t.slab S).append) (t.head cpu k) S → t.returned S = false := by
    rintro t ⟨L, hinv⟩ cpu k S hv
    exact (hinv.slabs cpu k S ((hinv.chain cpu k).mem_of_visits hv)).returned
  constructor
  · intro t c hmem S hS
    rcases hsteps _ hmem with ⟨L, hinv⟩
    exact hinv.untouched hS
  · intro t c hmem S hS
    rcases hsteps _ hmem with ⟨L, hinv⟩
    have hpc := hinv.pcs c
    cases hp : t.pc c <;> rw [hp] at hS hpc <;>
      simp only [SlabPc.returns, reduceCtorEq, Option.some.injEq] at hS
    subst hS
    exact hpc.2.2.2.2
  · exact ⟨fun p hp => hunlinked (hsteps p hp), hunlinked hlast⟩

/-! ### Three slabs in a list -/

/-- What `slab_system_init` leaves when it is given the pages from 16 MiB on. -/
def firstSlabs (cpuNum : ℕ) : SlabConc where
  slab S := freshSlab ((S / 2 ^ 12 - 2 ^ 12) / 9) ((S / 2 ^ 12 - 2 ^ 12) % 9) S none
  head cpu k := if cpu < cpuNum ∧ k < 9 then some (2 ^ 12 * (2 ^ 12 + 9 * cpu + k)) else none
  pages S := if 2 ^ 24 ≤ S ∧ S < 2 ^ 24 + 2 ^ 12 * 9 * cpuNum then .slab else .free
  returned _ := false
  live := []
  pc _ := .idle

theorem slabStart_firstSlabs (cpuNum : ℕ) : SlabStart (firstSlabs cpuNum) := by
  refine ⟨fun _ => rfl, rfl, fun _ => rfl, ?_⟩
  intro cpu k S hS
  simp only [firstSlabs, Option.ite_none_right_eq_some, Option.some.injEq] at hS
  rcases hS with ⟨⟨hcpu, hk⟩, rfl⟩
  have hpage : 2 ^ 12 * (2 ^ 12 + 9 * cpu + k) / 2 ^ 12 - 2 ^ 12 = 9 * cpu + k := by
    rw [Nat.mul_div_cancel_left _ (by decide)]
    omega
  refine ⟨?_, if_pos ⟨by omega, by omega⟩, Nat.dvd_mul_right _ _, ?_⟩
  · simp only [firstSlabs]
    rw [hpage, show (9 * cpu + k) / 9 = cpu by omega, show (9 * cpu + k) % 9 = k by omega]
  · simp only [S_8B, S_REFUSE]
    omega

/-- CPU 0 allocates three times 2 KiB; each slab of this class has one block. -/
def threeSlabs : List SlabEvent :=
  .callAlloc 0 8 :: List.replicate 5 (.step 0) ++
  .callAlloc 0 8 :: List.replicate 5 (.step 0) ++
  .page 0 (some (5000 * 2 ^ 12)) :: List.replicate 7 (.step 0) ++
  .callAlloc 0 8 :: List.replicate 11 (.step 0) ++
  .page 0 (some (5001 * 2 ^ 12)) :: List.replicate 7 (.step 0)

/-- CPU 1 frees the block of the slab in the middle and recovers the slab. -/
def freeMiddle : List SlabEvent :=
  .callFree 1 (5000 * 2 ^ 12 + 2 ^ 11) :: List.replicate 9 (.step 1)

/-- CPU 0 looks for a block and has just released the lock of the slab in the middle. -/
def passMiddle : List SlabEvent := .callAlloc 0 8 :: List.replicate 13 (.step 0)

/-- The slab in the middle is recovered while CPU 0 is idle. -/
theorem recoverSound_freeMiddle : ∃ hist s, SlabRun 2 hist s ∧
    s.returned (5000 * 2 ^ 12) = true ∧ RecoverSound hist s := by
  have hex : ((threeSlabs ++ freeMiddle).foldlM
      (fun s e => if Unobserved 2 s e then slabExec 2 s e else none) (firstSlabs 2)).any
      (fun s => s.returned (5000 * 2 ^ 12)) = true := by decide +kernel
  rcases (Option.any_eq_true _ _).1 hex with ⟨s, hs, hret⟩
  rcases Run.exists_of_foldlM (.start (slabStart_firstSlabs 2)) allSteps_nil hs with ⟨hist, hr, hno⟩
  exact ⟨hist, s, hr, hret, recoverSound_of_run hr hno⟩

/-- The slab in the middle is recovered when CPU 0 has released its lock; then CPU 0 reads its
link. -/
theorem not_recoverSound : ¬ ∀ n hist s, SlabRun n hist s → RecoverSound hist s := by
  intro hall
  have hex : ((threeSlabs ++ passMiddle ++ freeMiddle).foldlM
      (fun s e => if True then slabExec 2 s e else none) (firstSlabs 2)).any
      (fun s => s.returned (5000 * 2 ^ 12) && (slabExec 2 s (.step 0)).isSome &&
        (s.pc 0).touches == some (5000 * 2 ^ 12)) = true := by decide +kernel
  rcases (Option.any_eq_true _ _).1 hex with ⟨s, hs, hbad⟩
  simp only [Bool.and_eq_true, beq_iff_eq] at hbad
  rcases hbad with ⟨⟨hret, hstep⟩, htouch⟩
  obtain ⟨hist, hr, -⟩ := Run.exists_of_foldlM (C := fun _ _ => True)
    (.start (slabStart_firstSlabs 2)) allSteps_nil hs
  rcases Option.isSome_iff_exists.1 hstep with ⟨t, ht⟩
  have hsound := (hall 2 _ t (hr.snoc ht)).untouched s 0 List.mem_cons_self _ htouch
  rw [hret] at hsound
  cases hsound

end OsLab
