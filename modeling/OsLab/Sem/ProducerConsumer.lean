import OsLab.Sem.Client

/-! # Producers and consumers (`test.c`, built with `DEBUG_PV`)

`os_init` makes the semaphore `empty` with one resource and `full` with none. A producer
waits on `empty`, prints `(` and signals `full`; a consumer waits on `full`, prints `)`
and signals `empty`. Here any number of tasks do so, any number of times each, and a
step is one critical section of a semaphore, a task that leaves the loop of `sem_wait`,
or one `printf`.

A task waits on one semaphore at a time, so its flag `blocked` is kept with the
semaphore it waits on.
-/

namespace OsLab

open Tally Trace

variable {α : Type*} [DecidableEq α]

/-- Where a task is in `producer` or `consumer`. -/
inductive PvPc
  | outside
  /-- between the call of `sem_wait` and `printf` -/
  | waiting
  /-- between `printf` and `sem_signal` -/
  | printed
deriving DecidableEq

/-- The function a task runs. -/
inductive PvRole
  | producer
  | consumer
deriving DecidableEq

/-- What it prints. -/
def PvRole.char : PvRole → Char
  | .producer => '('
  | .consumer => ')'

/-- The role on the other side. -/
def PvRole.other : PvRole → PvRole
  | .producer => .consumer
  | .consumer => .producer

/-- The resources `os_init` gives the semaphore the role waits on. -/
def PvRole.value : PvRole → ℤ
  | .producer => 1
  | .consumer => 0

/-- `sem r` is the semaphore the role `r` waits on: `empty` for producers, `full` for consumers. -/
structure PvState (α : Type*) where
  sem : PvRole → SemState α
  pc : α → PvPc
  out : List Char

inductive PvAct (α : Type*)
  | wait (t : α)
  | leave (t : α)
  | print (t : α)
  | signal (t : α)

def PvState.setSem (r : PvRole) (m : SemState α) (s : PvState α) : PvState α :=
  { s with sem := Function.update s.sem r m }

def PvState.setPc (t : α) (pc : PvPc) (s : PvState α) : PvState α :=
  { s with pc := Function.update s.pc t pc }

/-- The task `t` runs the function `role t`. -/
inductive PvStep (role : α → PvRole) : PvState α → PvAct α → PvState α → Prop
  | wait {s : PvState α} {t : α} {m : SemState α} :
      s.pc t = .outside → SemStep (s.sem (role t)) (.wait t) m →
      PvStep role s (.wait t) ((s.setSem (role t) m).setPc t .waiting)
  | leave {s : PvState α} {t : α} {m : SemState α} :
      SemStep (s.sem (role t)) (.leave t) m →
      PvStep role s (.leave t) (s.setSem (role t) m)
  | print {s : PvState α} {t : α} :
      s.pc t = .waiting → (s.sem (role t)).inLoop t = false →
      PvStep role s (.print t) { s.setPc t .printed with out := s.out ++ [(role t).char] }
  | signal {s : PvState α} {t : α} {m : SemState α} :
      s.pc t = .printed → SemStep (s.sem (role t).other) (.signal (some t)) m →
      PvStep role s (.signal t) ((s.setSem (role t).other m).setPc t .outside)

/-- The state `os_init` leaves. -/
def pvStart : PvState α where
  sem := fun r => semStart r.value
  pc := fun _ => .outside
  out := []

def PvRun (role : α → PvRole) : List (PvState α × PvAct α) → PvState α → Prop :=
  Run (fun s => s = pvStart) (PvStep role)

/-- How often the role `r` printed. -/
def PvState.prints (r : PvRole) (s : PvState α) : ℕ := s.out.count r.char

/-- `()()...`, possibly with a last `(`. -/
def Alternating (out : List Char) : Prop :=
  ∀ (i : ℕ) (c : Char), out[i]? = some c → c = if i % 2 = 0 then '(' else ')'

/-- A call of `sem_wait` that blocks finds fewer than 255 tasks blocked on its semaphore. -/
def PvRoom (role : α → PvRole) (s : PvState α) (a : PvAct α) : Prop :=
  ∀ t, a = .wait t → RoomForWaiter (s.sem (role t)) (.wait t)

/-- Task `t` can go on: it is granted and not yet through, or it is to signal. -/
def PvState.Moving (role : α → PvRole) (s : PvState α) (t : α) : Prop :=
  (s.pc t = .waiting ∧ (s.sem (role t)).mem.blocked t = false) ∨ s.pc t = .printed

/-! ## The invariant -/

/-- A role's semaphore counts its prints, and signals those of the other role, except the ones
that are still to be signalled. -/
structure PvInv (role : α → PvRole) (s : PvState α) : Prop where
  clients : ∀ r, Clients r.value (s.sem r) (fun t => role t = r ∧ s.pc t = .waiting) (s.prints r)
  signals : ∀ r, ∃ n, Counts (fun t => role t = r.other ∧ s.pc t = .printed) n ∧
    (s.sem r).signals + n = s.prints r.other
  length : s.out.length = s.prints .producer + s.prints .consumer
  alternating : Alternating s.out

section Lemmas

variable {role : α → PvRole} {s s' : PvState α} {t : α} {r : PvRole}

theorem PvRole.other_other (r : PvRole) : r.other.other = r := by cases r <;> rfl

theorem PvRole.value_nonneg (r : PvRole) : 0 ≤ r.value := by cases r <;> decide

theorem PvRole.char_inj {q r : PvRole} (h : q.char = r.char) : q = r := by
  cases q <;> cases r <;> first | rfl | exact absurd h (by decide)

omit [DecidableEq α] in
/-- How far the two roles are apart. -/
theorem PvInv.prints_le (h : PvInv role s) :
    s.prints .consumer ≤ s.prints .producer ∧ s.prints .producer ≤ s.prints .consumer + 1 := by
  rcases h.signals .producer with ⟨d, -, hd⟩
  rcases h.signals .consumer with ⟨b, -, hb⟩
  have he := (h.clients .producer).grants_le (PvRole.value_nonneg _)
  have hf := (h.clients .consumer).grants_le (PvRole.value_nonneg _)
  simp only [PvRole.value, PvRole.other] at he hf hd hb
  omega

omit [DecidableEq α] in
/-- The place of the next character. -/
theorem PvInv.length_mod (h : PvInv role s) (hpc : s.pc t = .waiting)
    (hout : (s.sem (role t)).inLoop t = false) :
    (role t).char = if s.out.length % 2 = 0 then '(' else ')' := by
  have hlt := (h.clients (role t)).lt_grants ⟨rfl, hpc⟩ hout
  have hle := (h.clients (role t)).grants_le (PvRole.value_nonneg _)
  have hlen := h.length
  have hprints := h.prints_le
  rcases h.signals (role t) with ⟨d, -, hd⟩
  cases hr : role t with
  | producer =>
      -- `empty` had a resource left: as many are closed as opened
      simp only [hr, PvRole.value, PvRole.other] at hlt hle hd
      rw [if_pos (by omega)]
      rfl
  | consumer =>
      simp only [hr, PvRole.value, PvRole.other] at hlt hle hd
      rw [if_neg (by omega)]
      rfl

theorem Alternating.concat {out : List Char} {c : Char} (h : Alternating out)
    (hc : c = if out.length % 2 = 0 then '(' else ')') : Alternating (out ++ [c]) := by
  intro i d hd
  rcases Nat.lt_trichotomy i out.length with hlt | rfl | hgt
  · rw [List.getElem?_append_left hlt] at hd
    exact h i d hd
  · rw [List.getElem?_concat_length] at hd
    rw [← Option.some.inj hd]
    exact hc
  · have hlen := (List.getElem?_eq_some_iff.1 hd).1
    rw [List.length_append, List.length_singleton] at hlen
    omega

omit [DecidableEq α] in
theorem pvInv_start (role : α → PvRole) : PvInv role (pvStart : PvState α) where
  clients r := by
    refine (clients_start r.value).congr fun u => ?_
    simp [pvStart]
  signals r := ⟨0, counts_zero fun u => by simp [pvStart], rfl⟩
  length := rfl
  alternating := nofun

/-! ## Steps -/

theorem PvInv.wait (h : PvInv role s) {m : SemState α} (hpc : s.pc t = .outside)
    (hst : SemStep (s.sem (role t)) (.wait t) m) :
    PvInv role ((s.setSem (role t) m).setPc t .waiting) := by
  have hwait := (h.clients (role t)).wait (by simp [hpc]) hst fun u => Iff.rfl
  refine ⟨?_, ?_, h.length, h.alternating⟩
  · refine (Function.forall_update_iff s.sem (p := fun r m => Clients r.value m (fun u =>
      role u = r ∧ Function.update s.pc t .waiting u = .waiting) (s.prints r))).2 ⟨?_, ?_⟩
    · refine hwait.1.congr fun u => ?_
      rw [update_eq_iff]
      by_cases hut : u = t <;> simp [hut]
    · intro r hr
      refine (h.clients r).congr fun u => ?_
      rw [update_eq_iff]
      by_cases hut : u = t <;> simp [hut, Ne.symm hr]
  · have hcount : ∀ r : PvRole, ∀ n,
        Counts (fun u => role u = r.other ∧ s.pc u = .printed) n →
        Counts (fun u => role u = r.other ∧ Function.update s.pc t .waiting u = .printed) n := by
      intro r n hn
      refine hn.congr fun u => ?_
      rw [update_eq_iff]
      by_cases hut : u = t <;> simp [hut, hpc]
    refine (Function.forall_update_iff s.sem (p := fun r m => ∃ n, Counts (fun u =>
      role u = r.other ∧ Function.update s.pc t .waiting u = .printed) n ∧
        m.signals + n = s.prints r.other)).2 ⟨?_, ?_⟩
    · rcases h.signals (role t) with ⟨n, hn, hsig⟩
      exact ⟨n, hcount _ n hn, by rw [hwait.2, hsig]⟩
    · intro r _
      rcases h.signals r with ⟨n, hn, hsig⟩
      exact ⟨n, hcount r n hn, hsig⟩

theorem PvInv.leave (h : PvInv role s) {m : SemState α}
    (hst : SemStep (s.sem (role t)) (.leave t) m) : PvInv role (s.setSem (role t) m) := by
  have hleave := (h.clients (role t)).leave hst
  refine ⟨?_, ?_, h.length, h.alternating⟩
  · exact (Function.forall_update_iff s.sem (p := fun r m => Clients r.value m (fun u =>
      role u = r ∧ s.pc u = .waiting) (s.prints r))).2 ⟨hleave.1, fun r _ => h.clients r⟩
  · refine (Function.forall_update_iff s.sem (p := fun r m => ∃ n, Counts (fun u =>
      role u = r.other ∧ s.pc u = .printed) n ∧ m.signals + n = s.prints r.other)).2
      ⟨?_, fun r _ => h.signals r⟩
    rw [hleave.2]
    exact h.signals (role t)

theorem count_concat_char (out : List Char) (q r : PvRole) :
    (out ++ [q.char]).count r.char = out.count r.char + if q = r then 1 else 0 := by
  rw [List.count_append]
  congr 1
  by_cases hq : q = r
  · rw [if_pos hq, hq, List.count_singleton_self]
  · rw [if_neg hq, List.count_singleton, if_neg]
    simpa using mt PvRole.char_inj hq

theorem PvInv.print (h : PvInv role s) (hpc : s.pc t = .waiting)
    (hout : (s.sem (role t)).inLoop t = false) :
    PvInv role { s.setPc t .printed with out := s.out ++ [(role t).char] } where
  clients r := by
    change Clients _ _ (fun u => role u = r ∧ Function.update s.pc t .printed u = .waiting)
      ((s.out ++ [(role t).char]).count r.char)
    rw [count_concat_char]
    by_cases hr : role t = r
    · subst hr
      rw [if_pos rfl]
      refine (h.clients (role t)).goOn ⟨rfl, hpc⟩ hout fun u => ?_
      rw [update_eq_iff]
      by_cases hut : u = t <;> simp [hut]
    · rw [if_neg hr]
      refine (h.clients r).congr fun u => ?_
      rw [update_eq_iff]
      by_cases hut : u = t <;> simp [hut, hr]
  signals r := by
    change ∃ n, Counts (fun u => role u = r.other ∧ Function.update s.pc t .printed u = .printed) n ∧
      (s.sem r).signals + n = (s.out ++ [(role t).char]).count r.other.char
    rcases h.signals r with ⟨n, hn, hsig⟩
    rw [count_concat_char]
    by_cases hr : role t = r.other
    · -- one more to be signalled
      refine ⟨n + 1, hn.add (a := t) (by simp [hpc]) fun u => ?_, ?_⟩
      · rw [update_eq_iff]
        by_cases hut : u = t <;> simp [hut, hr]
      · rw [if_pos hr, ← Nat.add_assoc, hsig]
        rfl
    · refine ⟨n, hn.congr fun u => ?_, ?_⟩
      · rw [update_eq_iff]
        by_cases hut : u = t <;> simp [hut, hr]
      · rw [if_neg hr, hsig]
        rfl
  length := by
    change (s.out ++ [(role t).char]).length = (s.out ++ [(role t).char]).count _ +
      (s.out ++ [(role t).char]).count _
    have hlen := h.length
    unfold PvState.prints at hlen
    rw [count_concat_char, count_concat_char, List.length_append, List.length_singleton]
    cases role t <;> simp only [reduceCtorEq, if_true, if_false] <;> omega
  alternating := h.alternating.concat (h.length_mod hpc hout)

/-- The semaphore of the other role counts one more signal. -/
theorem PvInv.signal (h : PvInv role s) {m : SemState α} (hpc : s.pc t = .printed)
    (hst : SemStep (s.sem (role t).other) (.signal (some t)) m) :
    PvInv role ((s.setSem (role t).other m).setPc t .outside) := by
  have hsignal := (h.clients (role t).other).signal hst
  have hW : ∀ r u, (role u = r ∧ Function.update s.pc t .outside u = .waiting) ↔
      (role u = r ∧ s.pc u = .waiting) := by
    intro r u
    rw [update_eq_iff]
    by_cases hut : u = t <;> simp [hut, hpc]
  refine ⟨?_, ?_, h.length, h.alternating⟩
  · exact (Function.forall_update_iff s.sem (p := fun r m => Clients r.value m (fun u =>
      role u = r ∧ Function.update s.pc t .outside u = .waiting) (s.prints r))).2
      ⟨hsignal.1.congr (hW _), fun r _ => (h.clients r).congr (hW r)⟩
  · refine (Function.forall_update_iff s.sem (p := fun r m => ∃ n, Counts (fun u =>
      role u = r.other ∧ Function.update s.pc t .outside u = .printed) n ∧
        m.signals + n = s.prints r.other)).2 ⟨?_, ?_⟩
    · rcases h.signals (role t).other with ⟨n, hn, hsig⟩
      rw [PvRole.other_other] at hn hsig ⊢
      rcases hn.remove (a := t) ⟨rfl, hpc⟩ (Q := fun u => role u = role t ∧
        Function.update s.pc t .outside u = .printed) fun u => by
          rw [update_eq_iff]
          by_cases hut : u = t <;> simp [hut] with ⟨k, hk, hkn⟩
      exact ⟨k, hk, by rw [hsignal.2]; omega⟩
    · intro r hr
      rcases h.signals r with ⟨n, hn, hsig⟩
      refine ⟨n, hn.congr fun u => ?_, hsig⟩
      rw [update_eq_iff]
      by_cases hut : u = t
      · have hne : role t ≠ r.other := by
          intro he
          apply hr
          rw [he, PvRole.other_other]
        simp [hut, hne]
      · simp [hut]

/-- Every step keeps the invariant. -/
theorem PvStep.inv {a : PvAct α} (hst : PvStep role s a s') (h : PvInv role s) :
    PvInv role s' := by
  cases hst with
  | wait hpc hsem => exact h.wait hpc hsem
  | leave hsem => exact h.leave hsem
  | print hpc hout => exact h.print hpc hout
  | signal hpc hsem => exact h.signal hpc hsem

/-! ## Nobody is lost -/

/-- A step that leaves room keeps both rings in order. -/
theorem PvStep.fifo {a : PvAct α} (hst : PvStep role s a s') (h : PvInv role s)
    (hroom : PvRoom role s a) (hf : ∀ r, Fifo (s.sem r)) : ∀ r, Fifo (s'.sem r) := by
  have hstep : ∀ {q : PvRole} {e : SemEvent α} {m : SemState α}, RoomForWaiter (s.sem q) e →
      SemStep (s.sem q) e m → ∀ r, Fifo (Function.update s.sem q m r) := by
    intro q e m hr hsem
    refine (Function.forall_update_iff s.sem (p := fun _ m => Fifo m)).2 ⟨?_, fun r _ => hf r⟩
    exact (hf q).step (PvRole.value_nonneg q) (h.clients q).sem hr hsem
  cases hst with
  | wait hpc hsem => exact hstep (hroom _ rfl) hsem
  | leave hsem => exact hstep (by rintro _ ⟨⟩) hsem
  | print hpc hout => exact hf
  | signal hpc hsem => exact hstep (by rintro _ ⟨⟩) hsem

omit [DecidableEq α] in
/-- When a task of each role is asleep, there is one task that is not. -/
theorem PvInv.exists_moving (h : PvInv role s) (hf : ∀ r, Fifo (s.sem r)) {u : α}
    (ht : (s.sem .producer).mem.blocked t = true) (hu : (s.sem .consumer).mem.blocked u = true) :
    ∃ v, s.Moving role v := by
  have hempty := (h.clients .producer).grants_eq (PvRole.value_nonneg _) (hf _) ht
  have hfull := (h.clients .consumer).grants_eq (PvRole.value_nonneg _) (hf _) hu
  rcases (h.clients .producer).grants with ⟨a, ha, hgrants⟩
  rcases (h.clients .consumer).grants with ⟨b, hb, hgrants'⟩
  rcases h.signals .producer with ⟨c, hc, hsig⟩
  rcases h.signals .consumer with ⟨d, hd, hsig'⟩
  simp only [PvRole.value, PvRole.other] at hempty hfull hsig hsig'
  -- the one resource is with one of the four
  have hsum : a + b + c + d = 1 := by omega
  have hcases : 0 < a ∨ 0 < b ∨ 0 < c ∨ 0 < d := by omega
  rcases hcases with hpos | hpos | hpos | hpos
  · rcases ha.exists_of_pos hpos with ⟨v, ⟨hrole, hpc⟩, hbl⟩
    exact ⟨v, Or.inl ⟨hpc, by rwa [hrole]⟩⟩
  · rcases hb.exists_of_pos hpos with ⟨v, ⟨hrole, hpc⟩, hbl⟩
    exact ⟨v, Or.inl ⟨hpc, by rwa [hrole]⟩⟩
  · rcases hc.exists_of_pos hpos with ⟨v, -, hpc⟩
    exact ⟨v, Or.inr hpc⟩
  · rcases hd.exists_of_pos hpos with ⟨v, -, hpc⟩
    exact ⟨v, Or.inr hpc⟩

end Lemmas

/-! ## Runs -/

/-- What the two semaphores are for, at the end of the run with history `h`. -/
structure PvSound (role : α → PvRole) (h : List (PvState α × PvAct α)) (s : PvState α) : Prop where
  alternating : Alternating s.out
  /-- the tasks are never all asleep, as long as the rings of waiters have room -/
  moving : AllSteps (PvRoom role) h → ∀ t u, (s.sem .producer).mem.blocked t = true →
    (s.sem .consumer).mem.blocked u = true → ∃ v, s.Moving role v

/-- For any number of producers and consumers, over every interleaving. -/
theorem pvSound_of_run {role : α → PvRole} {h : List (PvState α × PvAct α)} {s : PvState α}
    (hr : PvRun role h s) : PvSound role h s := by
  refine ⟨?_, fun hroom t u ht hu => ?_⟩
  · refine (hr.invariant (I := PvInv role) ?_ fun _ _ _ hI hst => hst.inv hI).alternating
    rintro s rfl
    exact pvInv_start role
  · have hinv := hr.invariant_of_allSteps (I := fun s => PvInv role s ∧ ∀ r, Fifo (s.sem r))
      ?_ (fun s a s' hI hC hst => ⟨hst.inv hI.1, hst.fifo hI.1 hC hI.2⟩) hroom
    · exact hinv.2.1.exists_moving hinv.2.2 ht hu
    · rintro s rfl
      refine ⟨pvInv_start role, fun r => ⟨?_, fun _ => rfl⟩⟩
      have hring := (semInv_start (α := α) r.value).ring
      exact (Ring.window_eq_nil_iff hring.head_lt hring.tail_lt).2 rfl

/-- The consumer `true` comes first and waits; two rounds of the producer `false`, the second of
which waits for the consumer. -/
theorem pvSound_two_tasks : ∃ h s, PvRun (α := Bool) (fun t => if t then .consumer else .producer)
    h s ∧ s.out = ['(', ')'] ∧ PvSound (fun t => if t then .consumer else .producer) h s := by
  have hr : PvRun (α := Bool) (fun t => if t then .consumer else .producer) _ _ :=
    Run.snoc (Run.snoc (Run.snoc (Run.snoc (Run.snoc (Run.snoc (Run.snoc (Run.start rfl)
      (show PvStep _ _ (.wait true) _ from .wait rfl (.block rfl rfl)))
      (show PvStep _ _ (.wait false) _ from .wait rfl (.pass rfl rfl)))
      (show PvStep _ _ (.print false) _ from .print rfl rfl))
      (show PvStep _ _ (.signal false) _ from .signal rfl (.signal (by decide) rfl)))
      (show PvStep _ _ (.wait false) _ from .wait rfl (.block rfl rfl)))
      (show PvStep _ _ (.leave true) _ from .leave (.leave rfl rfl)))
      (show PvStep _ _ (.print true) _ from .print rfl rfl)
  exact ⟨_, _, hr, rfl, pvSound_of_run hr⟩

end OsLab
