import OsLab.Klib.Vsprintf
import OsLab.Lib.Run
import Mathlib.Logic.Relation

/-! # `printf` (`klib/src/stdio.c`)

`printf` formats into a buffer of its own, and then writes the buffer to the serial port with the
lock `lock_print` held and interrupts off. The contexts (tasks and handlers) are `κ`, the processors
`χ`; a step of a context is one instruction that others can see. `flag` is a context's interrupt
flag: a context that has it set can be stopped at any point, and goes on later, perhaps on another
processor. One that has it cleared stops of its own accord only, which `printf` does not do.

The buffer has 2048 characters; a longer text would overflow it.
-/

namespace OsLab.Printf

open Trace

variable {κ χ : Type*}

/-- Where a context is in `printf`, with the variables that are in use there. -/
inductive Phase
  | outside
  /-- `buffer` is filled. -/
  | formatted (text : List UInt8)
  /-- `itr` is read. -/
  | flagged (text : List UInt8) (itr : Bool)
  /-- In the loop around `atomic_xchg`. -/
  | spinning (text : List UInt8) (itr : Bool) (val : ℕ)
  /-- In `putstr`; `val` is 0, and `rest` is still to be written. -/
  | printing (rest : List UInt8) (itr : Bool)
  /-- The lock is released. -/
  | released (itr : Bool)

/-- `lock_print`, what is written to the port, and the contexts. `texts` is a ghost: the texts for
which the lock has been taken, in this order. -/
structure Console (κ χ : Type*) where
  lockPrint : ℕ
  out : List UInt8
  phase : κ → Phase
  flag : κ → Bool
  cpu : κ → Option χ
  texts : List (List UInt8)

/-- `putstr` writes a buffer up to its NUL. -/
def putstrText (buffer : List UInt8) : List UInt8 := buffer.takeWhile fun b => b ≠ 0

inductive Act (χ : Type*)
  | format (buffer : List UInt8)
  | ienabled
  | cli
  | xchg
  | putch
  | unlock
  | iset
  | setFlag (b : Bool)
  | leave
  | enter (c : χ)

namespace Console

variable [DecidableEq κ]

def setPhase (s : Console κ χ) (k : κ) (p : Phase) : Console κ χ :=
  { s with phase := Function.update s.phase k p }

def setFlag (s : Console κ χ) (k : κ) (b : Bool) : Console κ χ :=
  { s with flag := Function.update s.flag k b }

end Console

/-- A context on a processor takes a step, stops, or goes on. -/
inductive Step [DecidableEq κ] : Console κ χ → κ × Act χ → Console κ χ → Prop
  | format {s : Console κ χ} {k : κ} {m scratch : ByteMem} {fmt buffer : List UInt8}
      {args : List UInt64} {n : ℕ} (hcpu : s.cpu k ≠ none) (hphase : s.phase k = .outside)
      (hrun : vsprintf m fmt args scratch = some (n, buffer)) (hfit : n ≤ 2048) :
      Step s (k, .format buffer) (s.setPhase k (.formatted (putstrText buffer)))
  | ienabled {s : Console κ χ} {k : κ} {text : List UInt8} (hcpu : s.cpu k ≠ none)
      (hphase : s.phase k = .formatted text) :
      Step s (k, .ienabled) (s.setPhase k (.flagged text (s.flag k)))
  | cli {s : Console κ χ} {k : κ} {text : List UInt8} {itr : Bool} (hcpu : s.cpu k ≠ none)
      (hphase : s.phase k = .flagged text itr) :
      Step s (k, .cli) ((s.setPhase k (.spinning text itr 1)).setFlag k false)
  | taken {s : Console κ χ} {k : κ} {text : List UInt8} {itr : Bool} {val : ℕ}
      (hcpu : s.cpu k ≠ none) (hphase : s.phase k = .spinning text itr val)
      (hlock : s.lockPrint = 0) :
      Step s (k, .xchg)
        { s.setPhase k (.printing text itr) with lockPrint := val, texts := s.texts ++ [text] }
  | failed {s : Console κ χ} {k : κ} {text : List UInt8} {itr : Bool} {val : ℕ}
      (hcpu : s.cpu k ≠ none) (hphase : s.phase k = .spinning text itr val)
      (hlock : s.lockPrint ≠ 0) :
      Step s (k, .xchg) { s.setPhase k (.spinning text itr s.lockPrint) with lockPrint := val }
  | putch {s : Console κ χ} {k : κ} {b : UInt8} {rest : List UInt8} {itr : Bool}
      (hcpu : s.cpu k ≠ none) (hphase : s.phase k = .printing (b :: rest) itr) :
      Step s (k, .putch) { s.setPhase k (.printing rest itr) with out := s.out ++ [b] }
  | unlock {s : Console κ χ} {k : κ} {itr : Bool} (hcpu : s.cpu k ≠ none)
      (hphase : s.phase k = .printing [] itr) :
      Step s (k, .unlock) { s.setPhase k (.released itr) with lockPrint := 0 }
  | iset {s : Console κ χ} {k : κ} {itr : Bool} (hcpu : s.cpu k ≠ none)
      (hphase : s.phase k = .released itr) :
      Step s (k, .iset) ((s.setPhase k .outside).setFlag k itr)
  -- the rest of the code
  | setFlag {s : Console κ χ} {k : κ} {b : Bool} (hcpu : s.cpu k ≠ none)
      (hphase : s.phase k = .outside) : Step s (k, .setFlag b) (s.setFlag k b)
  | leave {s : Console κ χ} {k : κ} (hstop : s.flag k = true ∨ s.phase k = .outside) :
      Step s (k, .leave) { s with cpu := Function.update s.cpu k none }
  | enter {s : Console κ χ} {k : κ} {c : χ} (hcpu : s.cpu k = none)
      (hfree : ∀ k', s.cpu k' ≠ some c) :
      Step s (k, .enter c) { s with cpu := Function.update s.cpu k (some c) }

/-- Nothing is printed yet. -/
structure Start (s : Console κ χ) : Prop where
  lockPrint : s.lockPrint = 0
  out : s.out = []
  texts : s.texts = []
  outside : ∀ k, s.phase k = .outside

/-- Between `iset(false)` and `iset(itr)`. -/
def Phase.Masked : Phase → Prop
  | .spinning _ _ _ | .printing _ _ | .released _ => True
  | .outside | .formatted _ | .flagged _ _ => False

/-- What a context still has to write with the lock held. -/
def Phase.rest : Phase → Option (List UInt8)
  | .printing rest _ => some rest
  | _ => none

theorem Phase.eq_printing {p : Phase} (h : p.rest ≠ none) : ∃ rest itr, p = .printing rest itr := by
  cases p with
  | printing rest itr => exact ⟨rest, itr, rfl⟩
  | outside | formatted | flagged | spinning | released => exact absurd rfl h

/-- What the contexts still have to write, beside the lock, the port and the texts: one context at
most holds the lock, and at the port are the texts, one behind the other, but for the rest that the
holder still has. -/
structure Written (rest : κ → Option (List UInt8)) (lockPrint : ℕ) (out : List UInt8)
    (texts : List (List UInt8)) : Prop where
  one : ∀ k k' r r', rest k = some r → rest k' = some r' → k = k'
  free : (∀ k, rest k = none) → lockPrint = 0 ∧ out = texts.flatten
  holder : ∀ k r, rest k = some r → lockPrint = 1 ∧
    ∃ done written, texts = done ++ [written ++ r] ∧ out = done.flatten ++ written

/-- From `iset(false)` to `iset(itr)` a context is on a processor with interrupts off. -/
structure ConsoleSound (s : Console κ χ) : Prop where
  masked : ∀ k, (s.phase k).Masked → s.flag k = false ∧ s.cpu k ≠ none
  val : ∀ k text itr val, s.phase k = .spinning text itr val → val = 1
  written : Written (fun k => (s.phase k).rest) s.lockPrint s.out s.texts

/-! ## Safety -/

namespace Written

variable {rest : κ → Option (List UInt8)} {lockPrint : ℕ} {out : List UInt8}
  {texts : List (List UInt8)} {k : κ}

theorem of_none (hrest : ∀ k, rest k = none) : Written rest 0 [] [] where
  one k k' r r' hk := by rw [hrest k] at hk; cases hk
  free _ := ⟨rfl, rfl⟩
  holder k r hk := by rw [hrest k] at hk; cases hk

/-- The lock is 0 or 1. -/
theorem lock_cases (h : Written rest lockPrint out texts) : lockPrint = 0 ∨ lockPrint = 1 := by
  by_cases hfree : ∀ k, rest k = none
  · exact Or.inl (h.free hfree).1
  · obtain ⟨k, hk⟩ := not_forall.1 hfree
    obtain ⟨r, hr⟩ := Option.ne_none_iff_exists'.1 hk
    exact Or.inr (h.holder k r hr).1

/-- With the lock free no context is in `putstr`. -/
theorem eq_none (h : Written rest lockPrint out texts) (hlock : lockPrint = 0) (k : κ) :
    rest k = none := by
  cases hr : rest k with
  | none => rfl
  | some r =>
      have := (h.holder k r hr).1
      omega

/-- Nobody writes beside the holder. -/
theorem others (h : Written rest lockPrint out texts) {k' : κ} {r : List UInt8}
    (hk : rest k = some r) (hne : k' ≠ k) : rest k' = none := by
  by_contra hsome
  obtain ⟨r', hr'⟩ := Option.ne_none_iff_exists'.1 hsome
  exact hne (h.one k' k _ _ hr' hk)

/-- The holder is at the end of `written`, and has `r` before it. -/
theorem of_holder [DecidableEq κ] (hrest : ∀ k', k' ≠ k → rest k' = none) (r : List UInt8)
    (done : List (List UInt8)) (written : List UInt8) :
    Written (Function.update rest k (some r)) 1 (done.flatten ++ written)
      (done ++ [written ++ r]) := by
  have hself : ∀ k' r', Function.update rest k (some r) k' = some r' → k' = k ∧ r' = r := by
    intro k' r' hk'
    by_cases hne : k' = k
    · rw [hne, Function.update_self] at hk'
      exact ⟨hne, (Option.some.inj hk').symm⟩
    · rw [Function.update_of_ne hne, hrest k' hne] at hk'
      cases hk'
  refine ⟨fun k₁ k₂ r₁ r₂ h₁ h₂ => ?_, fun hfree => ?_, fun k' r' hk' => ?_⟩
  · rw [(hself k₁ r₁ h₁).1, (hself k₂ r₂ h₂).1]
  · have hnone := hfree k
    rw [Function.update_self] at hnone
    cases hnone
  · obtain ⟨-, rfl⟩ := hself k' r' hk'
    exact ⟨rfl, done, written, rfl, rfl⟩

/-- Who has not a text to write takes the lock for one. -/
theorem take [DecidableEq κ] (h : Written rest 0 out texts) (k : κ) (text : List UInt8) :
    Written (Function.update rest k (some text)) 1 out (texts ++ [text]) := by
  have hholder := of_holder (k := k) (fun k' _ => h.eq_none rfl k') text texts []
  rw [List.append_nil, List.nil_append, ← (h.free (h.eq_none rfl)).2] at hholder
  exact hholder

/-- The holder writes a character. -/
theorem put [DecidableEq κ] {b : UInt8} {r : List UInt8} (h : Written rest lockPrint out texts)
    (hk : rest k = some (b :: r)) :
    Written (Function.update rest k (some r)) lockPrint (out ++ [b]) texts := by
  obtain ⟨hlock, done, written, htexts, hout⟩ := h.holder k _ hk
  have hholder := of_holder (k := k) (fun k' hne => h.others hk hne) r done (written ++ [b])
  rw [List.append_assoc, List.singleton_append] at hholder
  rw [hlock, hout, htexts, List.append_assoc]
  exact hholder

/-- The holder has written its text, and releases the lock. -/
theorem give [DecidableEq κ] (h : Written rest lockPrint out texts) (hk : rest k = some []) :
    Written (Function.update rest k none) 0 out texts := by
  have hnone : ∀ k', Function.update rest k none k' = none := by
    intro k'
    by_cases hne : k' = k
    · rw [hne, Function.update_self]
    · rw [Function.update_of_ne hne]
      exact h.others hk hne
  refine ⟨fun k₁ k₂ r₁ r₂ h₁ => ?_, fun _ => ⟨rfl, ?_⟩, fun k' r hk' => ?_⟩
  · rw [hnone k₁] at h₁
    cases h₁
  · obtain ⟨-, done, written, htexts, hout⟩ := h.holder k _ hk
    rw [hout, htexts, List.flatten_append, List.append_nil, List.flatten_singleton]
  · rw [hnone k'] at hk'
    cases hk'

end Written

theorem Start.sound {s : Console κ χ} (h : Start s) : ConsoleSound s where
  masked k hk := by rw [h.outside k] at hk; exact hk.elim
  val k text itr val hk := by rw [h.outside k] at hk; cases hk
  written := by
    rw [h.lockPrint, h.out, h.texts]
    exact Written.of_none fun k => by rw [h.outside k]; rfl

namespace ConsoleSound

variable [DecidableEq κ] {s : Console κ χ} {k : κ}

/-- What a context still has to write, after it goes on to another place. -/
theorem rest_update (s : Console κ χ) (k : κ) (p : Phase) :
    (fun k' => (Function.update s.phase k p k').rest) =
      Function.update (fun k' => (s.phase k').rest) k p.rest := by
  funext k'
  by_cases hk : k' = k
  · rw [hk, Function.update_self, Function.update_self]
  · rw [Function.update_of_ne hk, Function.update_of_ne hk]

/-- One context goes on to another place, with what it does to the lock and the port. -/
theorem move (h : ConsoleSound s) {p : Phase} {b : Bool} {lockPrint : ℕ} {out : List UInt8}
    {texts : List (List UInt8)} (hmask : p.Masked → b = false ∧ s.cpu k ≠ none)
    (hval : ∀ text itr val, p = .spinning text itr val → val = 1)
    (hw : Written (Function.update (fun k' => (s.phase k').rest) k p.rest) lockPrint out texts) :
    ConsoleSound { s with
      lockPrint := lockPrint
      out := out
      texts := texts
      phase := Function.update s.phase k p
      flag := Function.update s.flag k b } where
  masked k' hk' := by
    by_cases hkk : k' = k
    · subst hkk
      simp only [Function.update_self] at hk' ⊢
      exact hmask hk'
    · simp only [Function.update_of_ne hkk] at hk' ⊢
      exact h.masked k' hk'
  val k' text itr val hk' := by
    by_cases hkk : k' = k
    · subst hkk
      simp only [Function.update_self] at hk'
      exact hval text itr val hk'
    · simp only [Function.update_of_ne hkk] at hk'
      exact h.val k' text itr val hk'
  written := by
    simp only [rest_update]
    exact hw

/-- Where nothing is left to write, nothing is written. -/
theorem written_none (h : ConsoleSound s) {p : Phase} (hk : (s.phase k).rest = none)
    (hp : p.rest = none) :
    Written (Function.update (fun k' => (s.phase k').rest) k p.rest) s.lockPrint s.out s.texts := by
  have heq : Function.update (fun k' => (s.phase k').rest) k p.rest =
      fun k' => (s.phase k').rest := by
    rw [hp, ← hk]
    exact Function.update_eq_self k _
  rw [heq]
  exact h.written

/-- A step that leaves the interrupt flags alone. -/
theorem move_only (h : ConsoleSound s) {p : Phase} {lockPrint : ℕ} {out : List UInt8}
    {texts : List (List UInt8)} (hcpu : s.cpu k ≠ none) (hmask : p.Masked → (s.phase k).Masked)
    (hval : ∀ text itr val, p = .spinning text itr val → val = 1)
    (hw : Written (Function.update (fun k' => (s.phase k').rest) k p.rest) lockPrint out texts) :
    ConsoleSound { s.setPhase k p with lockPrint := lockPrint, out := out, texts := texts } := by
  have hflag : Function.update s.flag k (s.flag k) = s.flag := Function.update_eq_self k s.flag
  have hmove := h.move (k := k) (b := s.flag k)
    (fun hp => ⟨(h.masked k (hmask hp)).1, hcpu⟩) hval hw
  rw [hflag] at hmove
  exact hmove

/-- The processors change for contexts that may be stopped, or are not on one. -/
theorem recpu (h : ConsoleSound s) {c : Option χ} (hk : (s.phase k).Masked → c ≠ none) :
    ConsoleSound { s with cpu := Function.update s.cpu k c } where
  masked k' hk' := by
    refine ⟨(h.masked k' hk').1, ?_⟩
    by_cases hkk : k' = k
    · subst hkk
      simp only [Function.update_self]
      exact hk hk'
    · simp only [Function.update_of_ne hkk]
      exact (h.masked k' hk').2
  val := h.val
  written := h.written

/-- Each step keeps it. -/
theorem step {t : Console κ χ} {e : κ × Act χ} (h : ConsoleSound s) (hstep : Step s e t) :
    ConsoleSound t := by
  cases hstep with
  | format hcpu hphase hrun hfit =>
      refine h.move_only hcpu False.elim (fun _ _ _ hp => nomatch hp) ?_
      exact h.written_none (by rw [hphase]; rfl) rfl
  | ienabled hcpu hphase =>
      refine h.move_only hcpu False.elim (fun _ _ _ hp => nomatch hp) ?_
      exact h.written_none (by rw [hphase]; rfl) rfl
  | cli hcpu hphase =>
      refine h.move (fun _ => ⟨rfl, hcpu⟩) (fun _ _ _ hp => by cases hp; rfl) ?_
      exact h.written_none (by rw [hphase]; rfl) rfl
  | @taken k text itr val hcpu hphase hlock =>
      -- `val` is 1 here, and the lock was free
      have hval : val = 1 := h.val k text itr val hphase
      subst hval
      refine h.move_only hcpu (fun _ => by rw [hphase]; exact trivial)
        (fun _ _ _ hp => nomatch hp) ?_
      have hw := h.written
      rw [hlock] at hw
      exact hw.take k text
  | @failed k text itr val hcpu hphase hlock =>
      have hval : val = 1 := h.val k text itr val hphase
      have hone : s.lockPrint = 1 := h.written.lock_cases.resolve_left hlock
      subst hval
      refine h.move_only hcpu (fun _ => by rw [hphase]; exact trivial)
        (fun _ _ _ hp => by cases hp; exact hone) ?_
      have hw := h.written_none (k := k) (p := .spinning text itr s.lockPrint)
        (by rw [hphase]; rfl) rfl
      rw [hone] at hw ⊢
      exact hw
  | @putch k b rest itr hcpu hphase =>
      refine h.move_only hcpu (fun _ => by rw [hphase]; exact trivial)
        (fun _ _ _ hp => nomatch hp) ?_
      exact h.written.put (k := k) (b := b) (r := rest) (by rw [hphase]; rfl)
  | @unlock k itr hcpu hphase =>
      refine h.move_only hcpu (fun _ => by rw [hphase]; exact trivial)
        (fun _ _ _ hp => nomatch hp) ?_
      exact h.written.give (k := k) (by rw [hphase]; rfl)
  | iset hcpu hphase =>
      refine h.move False.elim (fun _ _ _ hp => nomatch hp) ?_
      exact h.written_none (by rw [hphase]; rfl) rfl
  | @setFlag k b hcpu hphase =>
      have hself : Function.update s.phase k Phase.outside = s.phase := by
        rw [← hphase]
        exact Function.update_eq_self k s.phase
      have hmove := h.move (k := k) (p := .outside) (b := b) False.elim (fun _ _ _ hp => nomatch hp)
        (h.written_none (by rw [hphase]; rfl) rfl)
      rw [hself] at hmove
      exact hmove
  | @leave k hstop =>
      refine h.recpu fun hk => absurd hstop ?_
      rintro (hflag | hphase)
      · rw [(h.masked k hk).1] at hflag
        cases hflag
      · rw [hphase] at hk
        exact hk.elim
  | enter hcpu hfree => exact h.recpu fun _ => Option.some_ne_none _

end ConsoleSound

/-- In every state of every run the port shows the texts for which the lock was taken, whole and in
this order, but for the rest of the last one. -/
theorem consoleSound_of_run [DecidableEq κ] {hist : List (Console κ χ × (κ × Act χ))}
    {s : Console κ χ} (hrun : Run Start Step hist s) : AllStates ConsoleSound hist s :=
  hrun.invariant_all (fun _ hs => hs.sound) fun _ _ _ hs hst => hs.step hst

section TwoContexts

/-- Two contexts, each on a processor of its own. -/
def twoContexts : Console Bool Bool where
  lockPrint := 0
  out := []
  phase _ := .outside
  flag _ := true
  cpu k := some k
  texts := []

def scratch : ByteMem := ⟨0, 50, fun _ => 0⟩

/-- The letters "hi". -/
def hi : List UInt8 := [104, 105]

/-- `printf("hi")` up to the loop around `atomic_xchg`. -/
theorem printf_hi {hist : List (Console Bool Bool × (Bool × Act Bool))} {s : Console Bool Bool}
    {k : Bool} (hrun : Run Start Step hist s) (hcpu : s.cpu k ≠ none)
    (hphase : s.phase k = .outside) :
    ∃ hist', Run Start Step hist'
      ((s.setPhase k (.spinning hi (s.flag k) 1)).setFlag k false) := by
  have hvsprintf : vsprintf scratch [104, 105, 0] [] scratch = some (3, [104, 105, 0]) := rfl
  have hformat := Step.format hcpu hphase hvsprintf (by decide)
  have hread := Step.ienabled (s := s.setPhase k (.formatted hi)) hcpu
    (Function.update_self k _ s.phase)
  have hcli := Step.cli (s := (s.setPhase k (.formatted hi)).setPhase k (.flagged hi (s.flag k)))
    hcpu (Function.update_self k _ _)
  have hlast := ((hrun.snoc hformat).snoc hread).snoc hcli
  simp only [Console.setPhase, Function.update_idem] at hlast ⊢
  exact ⟨_, hlast⟩

/-- One context is in `putstr`, the other one waits for the lock. -/
theorem twoContexts_run : ∃ hist s, Run Start Step hist (s : Console Bool Bool) ∧
    s.phase true = .spinning hi true 1 ∧ s.phase false = .printing [105] true := by
  have hstart : Run Start Step [] twoContexts := Run.start ⟨rfl, rfl, rfl, fun _ => rfl⟩
  obtain ⟨hist, hfirst⟩ := printf_hi (k := false) hstart (by decide) rfl
  have htaken := hfirst.snoc (Step.taken (k := false) (by decide) rfl rfl)
  have hput := htaken.snoc (Step.putch (k := false) (b := 104) (by decide) rfl)
  obtain ⟨hist', hsecond⟩ := printf_hi (k := true) hput (by decide) rfl
  exact ⟨hist', _, hsecond, rfl, rfl⟩

end TwoContexts

theorem consoleSound_twoContexts : ∃ hist s, Run Start Step hist (s : Console Bool Bool) ∧
    s.phase true = .spinning hi true 1 ∧ s.phase false = .printing [105] true ∧
      AllStates ConsoleSound hist s := by
  obtain ⟨hist, s, hrun, hphase, hholder⟩ := twoContexts_run
  exact ⟨hist, s, hrun, hphase, hholder, consoleSound_of_run hrun⟩

/-! ## Progress -/

section Progress

variable [DecidableEq κ] {s : Console κ χ} {k : κ}

/-- A step in the locked part of `printf`: nobody leaves its processor for it. -/
def LockedStep (s t : Console κ χ) : Prop :=
  ∃ k act, (act = Act.xchg ∨ act = Act.putch ∨ act = Act.unlock) ∧ Step s (k, act) t

theorem ConsoleSound.locked {t : Console κ χ} (h : ConsoleSound s)
    (hst : Relation.ReflTransGen LockedStep s t) : ConsoleSound t := by
  induction hst with
  | refl => exact h
  | tail _ hlast ih =>
      obtain ⟨_, _, _, hstep⟩ := hlast
      exact ih.step hstep

/-- The holder writes the rest, and releases the lock. -/
theorem lockedStep_rest (rest : List UInt8) {itr : Bool} (hcpu : s.cpu k ≠ none)
    (hphase : s.phase k = .printing rest itr) :
    Relation.ReflTransGen LockedStep s
      { s.setPhase k (.released itr) with lockPrint := 0, out := s.out ++ rest } := by
  induction rest generalizing s with
  | nil =>
      rw [List.append_nil]
      exact Relation.ReflTransGen.single
        ⟨k, .unlock, Or.inr (Or.inr rfl), Step.unlock hcpu hphase⟩
  | cons b rest ih =>
      have hput : LockedStep s { s.setPhase k (.printing rest itr) with out := s.out ++ [b] } :=
        ⟨k, .putch, Or.inr (Or.inl rfl), Step.putch hcpu hphase⟩
      have hrest := ih (s := { s.setPhase k (.printing rest itr) with out := s.out ++ [b] }) hcpu
        (Function.update_self k _ s.phase)
      simp only [Console.setPhase, Function.update_idem, List.append_assoc,
        List.singleton_append] at hrest hput ⊢
      exact Relation.ReflTransGen.head hput hrest

/-- A free lock is taken, and the text is written. -/
theorem lockedStep_free {text : List UInt8} {itr : Bool} (h : ConsoleSound s)
    (hphase : s.phase k = .spinning text itr 1) (hlock : s.lockPrint = 0) :
    ∃ t, Relation.ReflTransGen LockedStep s t ∧ t.phase k = .released itr ∧ t.lockPrint = 0 ∧
      t.texts = s.texts ++ [text] ∧ t.out = t.texts.flatten := by
  have hcpu : s.cpu k ≠ none := (h.masked k (by rw [hphase]; exact trivial)).2
  have htake : LockedStep s
      { s.setPhase k (.printing text itr) with lockPrint := 1, texts := s.texts ++ [text] } :=
    ⟨k, .xchg, Or.inl rfl, Step.taken hcpu hphase hlock⟩
  have hrest := lockedStep_rest text
    (s := { s.setPhase k (.printing text itr) with lockPrint := 1, texts := s.texts ++ [text] })
    hcpu (Function.update_self k _ s.phase)
  refine ⟨_, Relation.ReflTransGen.head htake hrest, Function.update_self k _ _, rfl, rfl, ?_⟩
  change s.out ++ text = (s.texts ++ [text]).flatten
  rw [(h.written.free (h.written.eq_none hlock)).2, List.flatten_append, List.flatten_singleton]

end Progress

/-- Whoever waits for the lock can get its text to the port: the holder, if there is one, and then
the waiting context only have to go on, each on the processor it is on. -/
theorem printf_can_finish [DecidableEq κ] {hist : List (Console κ χ × (κ × Act χ))}
    {s : Console κ χ} (hrun : Run Start Step hist s) {k : κ} {text : List UInt8} {itr : Bool}
    {val : ℕ} (hphase : s.phase k = .spinning text itr val) :
    ∃ t, Relation.ReflTransGen LockedStep s t ∧ t.phase k = .released itr ∧ t.lockPrint = 0 ∧
      t.texts = s.texts ++ [text] ∧ t.out = t.texts.flatten := by
  have h : ConsoleSound s := hrun.invariant (fun _ hs => hs.sound) fun _ _ _ hs hst => hs.step hst
  obtain rfl : val = 1 := h.val k text itr val hphase
  by_cases hfree : ∀ j, (s.phase j).rest = none
  · exact lockedStep_free h hphase (h.written.free hfree).1
  · obtain ⟨j, hj⟩ := not_forall.1 hfree
    obtain ⟨rest, itr', hpj⟩ := Phase.eq_printing hj
    have hcpu : s.cpu j ≠ none := (h.masked j (by rw [hpj]; exact trivial)).2
    have hjk : k ≠ j := by
      rintro rfl
      rw [hphase] at hpj
      cases hpj
    -- the holder first, and then `k` finds the lock free
    have hrest := lockedStep_rest rest hcpu hpj
    obtain ⟨t, ht, hdone⟩ := lockedStep_free (h.locked hrest)
      ((Function.update_of_ne hjk _ _).trans hphase) rfl
    exact ⟨t, hrest.trans ht, hdone⟩

theorem printf_finish_twoContexts : ∃ hist s t, Run Start Step hist (s : Console Bool Bool) ∧
    s.phase true = .spinning hi true 1 ∧ s.phase false = .printing [105] true ∧
      Relation.ReflTransGen LockedStep s t ∧ t.phase true = .released true ∧ t.lockPrint = 0 ∧
      t.texts = s.texts ++ [hi] ∧ t.out = t.texts.flatten := by
  obtain ⟨hist, s, hrun, hphase, hholder⟩ := twoContexts_run
  obtain ⟨t, ht⟩ := printf_can_finish hrun hphase
  exact ⟨hist, s, t, hrun, hphase, hholder, ht⟩

end OsLab.Printf
