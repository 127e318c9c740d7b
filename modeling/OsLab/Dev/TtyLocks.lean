import OsLab.Dev.TtySwitch
import OsLab.Sem.Client

/-! # The locks of the terminals (`dev_tty.c`, `dev_video.c`)

`tty_cook`, `tty_read`, the loop of `tty_write` and `tty_render` run between a
`sem_wait` and a `sem_signal` on `tty->lock`. `tty_render` calls `fb_write` in there, which
does the same on `fb_sem`; `dev_tty_task` calls `fb_write` with no terminal locked, to
change the display. `tty_init` and `fb_init` give each of these semaphores one resource.
Before it locks the terminal, `tty_read` waits for a line on `tty->cooked`, which starts
with none and which `tty_cook` signals behind each newline.

Any number of tasks go through these functions. A step is one critical section of a
semaphore, or a task that leaves the loop of `sem_wait`. That the terminals are locked
one at a time, and `fb_sem` last, is why the tasks cannot wait for each other in a circle.
A task that waits for a line has locked nothing.
-/

namespace OsLab

open Tally Trace

variable {α : Type*} [DecidableEq α]

/-- Where a task is. -/
inductive LockPc
  | outside
  /-- `tty_read`: in `sem_wait(&tty->cooked)` -/
  | waitCooked (k : TtyDev)
  /-- in `sem_wait(&tty->lock)` -/
  | waitTty (k : TtyDev)
  /-- between `sem_wait(&tty->lock)` and `sem_signal(&tty->lock)` -/
  | inTty (k : TtyDev)
  /-- in `sem_wait(&fb_sem)`, called from `tty_render` of a terminal or from `dev_tty_task` -/
  | waitFb (caller : Option TtyDev)
  /-- between `sem_wait(&fb_sem)` and `sem_signal(&fb_sem)` -/
  | inFb (caller : Option TtyDev)
deriving DecidableEq

/-- The terminal a task has locked. -/
def LockPc.tty : LockPc → Option TtyDev
  | .inTty k => some k
  | .waitFb caller => caller
  | .inFb caller => caller
  | _ => none

/-- In `sem_wait(&fb_sem)`. -/
def LockPc.wantsFb : LockPc → Bool
  | .waitFb _ => true
  | _ => false

/-- Between `sem_wait(&fb_sem)` and `sem_signal(&fb_sem)`. -/
def LockPc.hasFb : LockPc → Bool
  | .inFb _ => true
  | _ => false

/-- Where `fb_write` was called, and where it returns to. -/
def fbCaller : Option TtyDev → LockPc
  | some k => .inTty k
  | none => .outside

structure LockState (α : Type*) where
  lock : TtyDev → SemState α
  cooked : TtyDev → SemState α
  fbSem : SemState α
  pc : α → LockPc

inductive LockAct (α : Type*)
  | cookedWait (t : α) (k : TtyDev)
  | cookedLeave (t : α) (k : TtyDev)
  | cookedSignal (t : α) (k : TtyDev)
  | wait (t : α) (k : TtyDev)
  | leave (t : α) (k : TtyDev)
  | enter (t : α) (k : TtyDev)
  | signal (t : α) (k : TtyDev)
  | fbWait (t : α) (caller : Option TtyDev)
  | fbLeave (t : α)
  | fbEnter (t : α) (caller : Option TtyDev)
  | fbSignal (t : α) (caller : Option TtyDev)

inductive LockStep : LockState α → LockAct α → LockState α → Prop
  /-- `tty_read`: `kmt->sem_wait(&tty->cooked);` -/
  | cookedWait {s : LockState α} {t : α} {k : TtyDev} {m : SemState α} :
      s.pc t = .outside → SemStep (s.cooked k) (.wait t) m →
      LockStep s (.cookedWait t k)
        { s with
          cooked := Function.update s.cooked k m
          pc := Function.update s.pc t (.waitCooked k) }
  | cookedLeave {s : LockState α} {t : α} {k : TtyDev} {m : SemState α} :
      SemStep (s.cooked k) (.leave t) m →
      LockStep s (.cookedLeave t k) { s with cooked := Function.update s.cooked k m }
  /-- `tty_cook`, with a newline: `kmt->sem_signal(&tty->cooked);` -/
  | cookedSignal {s : LockState α} {t : α} {k : TtyDev} {m : SemState α} :
      s.pc t = .inTty k → SemStep (s.cooked k) (.signal (some t)) m →
      LockStep s (.cookedSignal t k) { s with cooked := Function.update s.cooked k m }
  /-- `kmt->sem_wait(&tty->lock);`, at the start of a function or, in `tty_read`, with a line to
  read. -/
  | wait {s : LockState α} {t : α} {k : TtyDev} {m : SemState α} :
      s.pc t = .outside ∨ (s.pc t = .waitCooked k ∧ (s.cooked k).inLoop t = false) →
      SemStep (s.lock k) (.wait t) m →
      LockStep s (.wait t k)
        { s with
          lock := Function.update s.lock k m
          pc := Function.update s.pc t (.waitTty k) }
  | leave {s : LockState α} {t : α} {k : TtyDev} {m : SemState α} :
      SemStep (s.lock k) (.leave t) m →
      LockStep s (.leave t k) { s with lock := Function.update s.lock k m }
  | enter {s : LockState α} {t : α} {k : TtyDev} :
      s.pc t = .waitTty k → (s.lock k).inLoop t = false →
      LockStep s (.enter t k) { s with pc := Function.update s.pc t (.inTty k) }
  | signal {s : LockState α} {t : α} {k : TtyDev} {m : SemState α} :
      s.pc t = .inTty k → SemStep (s.lock k) (.signal (some t)) m →
      LockStep s (.signal t k)
        { s with
          lock := Function.update s.lock k m
          pc := Function.update s.pc t .outside }
  | fbWait {s : LockState α} {t : α} {caller : Option TtyDev} {m : SemState α} :
      s.pc t = fbCaller caller → SemStep s.fbSem (.wait t) m →
      LockStep s (.fbWait t caller)
        { s with fbSem := m, pc := Function.update s.pc t (.waitFb caller) }
  | fbLeave {s : LockState α} {t : α} {m : SemState α} :
      SemStep s.fbSem (.leave t) m → LockStep s (.fbLeave t) { s with fbSem := m }
  | fbEnter {s : LockState α} {t : α} {caller : Option TtyDev} :
      s.pc t = .waitFb caller → s.fbSem.inLoop t = false →
      LockStep s (.fbEnter t caller) { s with pc := Function.update s.pc t (.inFb caller) }
  | fbSignal {s : LockState α} {t : α} {caller : Option TtyDev} {m : SemState α} :
      s.pc t = .inFb caller → SemStep s.fbSem (.signal (some t)) m →
      LockStep s (.fbSignal t caller)
        { s with fbSem := m, pc := Function.update s.pc t (fbCaller caller) }

/-- The state `fb_init` and `tty_init` leave. -/
def lockStart : LockState α :=
  ⟨fun _ => semStart 1, fun _ => semStart 0, semStart 1, fun _ => .outside⟩

def LockRun : List (LockState α × LockAct α) → LockState α → Prop :=
  Run (fun s => s = lockStart) LockStep

/-- A call of `sem_wait` that blocks finds fewer than 255 tasks blocked on its semaphore. -/
def LockRoom (s : LockState α) (a : LockAct α) : Prop :=
  (∀ t k, a = .cookedWait t k → RoomForWaiter (s.cooked k) (.wait t)) ∧
    (∀ t k, a = .wait t k → RoomForWaiter (s.lock k) (.wait t)) ∧
    ∀ t caller, a = .fbWait t caller → RoomForWaiter s.fbSem (.wait t)

/-- Task `t` is in `tty_read` and sleeps until there is a line. -/
def LockState.WantsLine (s : LockState α) (t : α) : Prop :=
  ∃ k, s.pc t = .waitCooked k ∧ (s.cooked k).mem.blocked t = true

/-- Task `t` is in one of the functions and not asleep. -/
def LockState.Awake (s : LockState α) (t : α) : Prop :=
  match s.pc t with
  | .outside => False
  | .waitCooked k => (s.cooked k).mem.blocked t = false
  | .waitTty k => (s.lock k).mem.blocked t = false
  | .inTty _ => True
  | .waitFb _ => s.fbSem.mem.blocked t = false
  | .inFb _ => True

/-! ## The invariant -/

structure LockInv (s : LockState α) : Prop where
  tty : ∀ k, Locked (s.lock k) (fun t => s.pc t = .waitTty k) (fun t => (s.pc t).tty = some k)
  fb : Locked s.fbSem (fun t => (s.pc t).wantsFb = true) (fun t => (s.pc t).hasFb = true)
  cooked : ∀ k, SemInv 0 (s.cooked k)

section Steps

variable {s s' : LockState α} {t : α} {k : TtyDev} {caller : Option TtyDev} {m : SemState α}

omit [DecidableEq α] in
theorem lockInv_start : LockInv (lockStart : LockState α) where
  tty k := locked_start.congr (by simp [lockStart]) (by simp [lockStart, LockPc.tty])
  fb := locked_start.congr (by simp [lockStart, LockPc.wantsFb]) (by simp [lockStart, LockPc.hasFb])
  cooked _ := semInv_start 0

/-- A task goes from `pc t` to `v`, which is nothing to `fb_sem`. -/
theorem LockInv.fb_goTo (h : LockInv s) {v : LockPc} (hw : v.wantsFb = (s.pc t).wantsFb)
    (hh : v.hasFb = (s.pc t).hasFb) :
    Locked s.fbSem (fun u => (Function.update s.pc t v u).wantsFb = true)
      (fun u => (Function.update s.pc t v u).hasFb = true) := by
  refine h.fb.congr (fun u => ?_) (fun u => ?_)
  · by_cases hut : u = t <;> simp [hut, hw]
  · by_cases hut : u = t <;> simp [hut, hh]

/-- A task goes from `pc t` to `v`, which is nothing to the lock of `k`. -/
theorem LockInv.tty_goTo (h : LockInv s) (k : TtyDev) {v : LockPc}
    (hw : v = .waitTty k ↔ s.pc t = .waitTty k) (hh : v.tty = some k ↔ (s.pc t).tty = some k) :
    Locked (s.lock k) (fun u => Function.update s.pc t v u = .waitTty k)
      (fun u => (Function.update s.pc t v u).tty = some k) := by
  refine (h.tty k).congr (fun u => ?_) (fun u => ?_)
  · by_cases hut : u = t <;> simp [hut, hw]
  · by_cases hut : u = t <;> simp [hut, hh]

theorem LockInv.cookedStep {e : SemEvent α} (h : LockInv s) (hst : SemStep (s.cooked k) e m) :
    ∀ j, SemInv 0 (Function.update s.cooked k m j) :=
  (Function.forall_update_iff s.cooked (p := fun _ m => SemInv 0 m)).2
    ⟨(h.cooked k).step hst, fun j _ => h.cooked j⟩

theorem LockInv.cookedWait (h : LockInv s) (hpc : s.pc t = .outside)
    (hst : SemStep (s.cooked k) (.wait t) m) :
    LockInv { s with
      cooked := Function.update s.cooked k m
      pc := Function.update s.pc t (.waitCooked k) } where
  tty j := h.tty_goTo j (by simp [hpc]) (by simp [hpc, LockPc.tty])
  fb := h.fb_goTo (by rw [hpc]; rfl) (by rw [hpc]; rfl)
  cooked := h.cookedStep hst

/-- A task that waits for a line, or has one, has locked nothing. -/
theorem LockInv.wait (h : LockInv s) (hpc : s.pc t = .outside ∨ s.pc t = .waitCooked k)
    (hst : SemStep (s.lock k) (.wait t) m) :
    LockInv { s with
      lock := Function.update s.lock k m
      pc := Function.update s.pc t (.waitTty k) } := by
  have hw : ∀ j, s.pc t ≠ .waitTty j := by
    rcases hpc with hpc | hpc <;> simp [hpc]
  have hno : (s.pc t).tty = none := by
    rcases hpc with hpc | hpc <;> rw [hpc] <;> rfl
  have hwait : (LockPc.waitTty k).tty = none := rfl
  refine ⟨?_, ?_, h.cooked⟩
  · refine (Function.forall_update_iff s.lock (p := fun j m => Locked m
      (fun u => Function.update s.pc t (.waitTty k) u = .waitTty j)
      (fun u => (Function.update s.pc t (.waitTty k) u).tty = some j))).2 ⟨?_, fun j hj => ?_⟩
    · refine (h.tty k).wait (hw k) hst (fun u => ?_) (fun u => ?_)
      · by_cases hut : u = t <;> simp [hut]
      · by_cases hut : u = t <;> simp [hut, hno, hwait]
    · exact h.tty_goTo j (by simp [hw, hj.symm]) (by simp [hno, hwait])
  · rcases hpc with hpc | hpc
    · exact h.fb_goTo (by rw [hpc]; rfl) (by rw [hpc]; rfl)
    · exact h.fb_goTo (by rw [hpc]; rfl) (by rw [hpc]; rfl)

theorem LockInv.leave (h : LockInv s) (hst : SemStep (s.lock k) (.leave t) m) :
    LockInv { s with lock := Function.update s.lock k m } where
  tty := (Function.forall_update_iff s.lock (p := fun j m => Locked m
    (fun u => s.pc u = .waitTty j) (fun u => (s.pc u).tty = some j))).2
    ⟨(h.tty k).leave hst, fun j _ => h.tty j⟩
  fb := h.fb
  cooked := h.cooked

theorem LockInv.enter (h : LockInv s) (hpc : s.pc t = .waitTty k)
    (hout : (s.lock k).inLoop t = false) :
    LockInv { s with pc := Function.update s.pc t (.inTty k) } where
  tty j := by
    by_cases hj : j = k
    · subst hj
      refine (h.tty j).enter hpc (by simp [hpc, LockPc.tty]) hout (fun u => ?_) (fun u => ?_)
      · by_cases hut : u = t <;> simp [hut]
      · by_cases hut : u = t <;> simp [hut, LockPc.tty]
    · exact h.tty_goTo j (by simp [hpc, Ne.symm hj]) (by simp [hpc, LockPc.tty, Ne.symm hj])
  fb := h.fb_goTo (by rw [hpc]; rfl) (by rw [hpc]; rfl)
  cooked := h.cooked

theorem LockInv.signal (h : LockInv s) (hpc : s.pc t = .inTty k)
    (hst : SemStep (s.lock k) (.signal (some t)) m) :
    LockInv { s with
      lock := Function.update s.lock k m
      pc := Function.update s.pc t .outside } where
  tty := by
    refine (Function.forall_update_iff s.lock (p := fun j m => Locked m
      (fun u => Function.update s.pc t .outside u = .waitTty j)
      (fun u => (Function.update s.pc t .outside u).tty = some j))).2 ⟨?_, fun j hj => ?_⟩
    · refine (h.tty k).signal (by simp [hpc, LockPc.tty]) hst (fun u => ?_) (fun u => ?_)
      · by_cases hut : u = t <;> simp [hut, hpc]
      · by_cases hut : u = t <;> simp [hut, LockPc.tty]
    · exact h.tty_goTo j (by simp [hpc]) (by simp [hpc, LockPc.tty, hj.symm])
  fb := h.fb_goTo (by rw [hpc]; rfl) (by rw [hpc]; rfl)
  cooked := h.cooked

theorem fbCaller_tty (caller : Option TtyDev) : (fbCaller caller).tty = caller := by
  cases caller <;> rfl

theorem fbCaller_ne_waitTty (caller : Option TtyDev) (k : TtyDev) :
    fbCaller caller ≠ .waitTty k := by
  cases caller <;> nofun

theorem fbCaller_wantsFb (caller : Option TtyDev) : (fbCaller caller).wantsFb = false := by
  cases caller <;> rfl

theorem fbCaller_hasFb (caller : Option TtyDev) : (fbCaller caller).hasFb = false := by
  cases caller <;> rfl

theorem LockInv.fbWait (h : LockInv s) (hpc : s.pc t = fbCaller caller)
    (hst : SemStep s.fbSem (.wait t) m) :
    LockInv { s with fbSem := m, pc := Function.update s.pc t (.waitFb caller) } where
  tty k := h.tty_goTo k (by simp [hpc, fbCaller_ne_waitTty])
    (by rw [hpc, fbCaller_tty, LockPc.tty])
  cooked := h.cooked
  fb := by
    refine h.fb.wait (by simp [hpc, fbCaller_wantsFb]) hst (fun u => ?_) (fun u => ?_)
    · by_cases hut : u = t <;> simp [hut, LockPc.wantsFb]
    · by_cases hut : u = t
      · rw [hut, hpc, fbCaller_hasFb]
        simp [LockPc.hasFb]
      · simp [hut]

theorem LockInv.fbLeave (h : LockInv s) (hst : SemStep s.fbSem (.leave t) m) :
    LockInv { s with fbSem := m } :=
  ⟨h.tty, h.fb.leave hst, h.cooked⟩

theorem LockInv.fbEnter (h : LockInv s) (hpc : s.pc t = .waitFb caller)
    (hout : s.fbSem.inLoop t = false) :
    LockInv { s with pc := Function.update s.pc t (.inFb caller) } where
  tty k := h.tty_goTo k (by simp [hpc]) (by rw [hpc, LockPc.tty, LockPc.tty])
  cooked := h.cooked
  fb := by
    refine h.fb.enter (by rw [hpc]; rfl) (by simp [hpc, LockPc.hasFb]) hout (fun u => ?_)
      (fun u => ?_)
    · by_cases hut : u = t <;> simp [hut, LockPc.wantsFb]
    · by_cases hut : u = t <;> simp [hut, LockPc.hasFb]

theorem LockInv.fbSignal (h : LockInv s) (hpc : s.pc t = .inFb caller)
    (hst : SemStep s.fbSem (.signal (some t)) m) :
    LockInv { s with fbSem := m, pc := Function.update s.pc t (fbCaller caller) } where
  tty k := h.tty_goTo k (by simp [hpc, fbCaller_ne_waitTty])
    (by rw [hpc, fbCaller_tty, LockPc.tty])
  cooked := h.cooked
  fb := by
    refine h.fb.signal (by rw [hpc]; rfl) hst (fun u => ?_) (fun u => ?_)
    · by_cases hut : u = t
      · rw [hut, hpc, show (LockPc.inFb caller).wantsFb = false from rfl]
        simp [fbCaller_wantsFb]
      · simp [hut]
    · by_cases hut : u = t <;> simp [hut, fbCaller_hasFb]

/-- Every step keeps the invariant. -/
theorem LockStep.inv {a : LockAct α} (hst : LockStep s a s') (h : LockInv s) : LockInv s' := by
  cases hst with
  | cookedWait hpc hsem => exact h.cookedWait hpc hsem
  | cookedLeave hsem => exact ⟨h.tty, h.fb, h.cookedStep hsem⟩
  | cookedSignal _ hsem => exact ⟨h.tty, h.fb, h.cookedStep hsem⟩
  | wait hpc hsem => exact h.wait (hpc.imp_right And.left) hsem
  | leave hsem => exact h.leave hsem
  | enter hpc hout => exact h.enter hpc hout
  | signal hpc hsem => exact h.signal hpc hsem
  | fbWait hpc hsem => exact h.fbWait hpc hsem
  | fbLeave hsem => exact h.fbLeave hsem
  | fbEnter hpc hout => exact h.fbEnter hpc hout
  | fbSignal hpc hsem => exact h.fbSignal hpc hsem

/-! ## No deadlock -/

/-- The rings of waiters have lost nobody. -/
structure LockState.Fifo (s : LockState α) : Prop where
  tty : ∀ k, OsLab.Fifo (s.lock k)
  cooked : ∀ k, OsLab.Fifo (s.cooked k)
  fb : OsLab.Fifo s.fbSem

/-- A step that leaves room keeps the rings in order. -/
theorem LockStep.fifo {a : LockAct α} (hst : LockStep s a s') (h : LockInv s)
    (hroom : LockRoom s a) (hf : s.Fifo) : s'.Fifo := by
  have hone : (0 : ℤ) ≤ 1 := by decide
  have htty : ∀ {k e m}, RoomForWaiter (s.lock k) e → SemStep (s.lock k) e m →
      ∀ j, OsLab.Fifo (Function.update s.lock k m j) := by
    intro k e m hr hsem
    rcases h.tty k with ⟨_, _, hc, -⟩
    exact (Function.forall_update_iff s.lock (p := fun _ m => OsLab.Fifo m)).2
      ⟨(hf.tty k).step hone hc.sem hr hsem, fun j _ => hf.tty j⟩
  have hcooked : ∀ {k e m}, RoomForWaiter (s.cooked k) e → SemStep (s.cooked k) e m →
      ∀ j, OsLab.Fifo (Function.update s.cooked k m j) := by
    intro k e m hr hsem
    exact (Function.forall_update_iff s.cooked (p := fun _ m => OsLab.Fifo m)).2
      ⟨(hf.cooked k).step (Int.le_refl 0) (h.cooked k) hr hsem, fun j _ => hf.cooked j⟩
  have hfb : ∀ {e m}, RoomForWaiter s.fbSem e → SemStep s.fbSem e m → OsLab.Fifo m := by
    intro e m hr hsem
    rcases h.fb with ⟨_, _, hc, -⟩
    exact hf.fb.step hone hc.sem hr hsem
  cases hst with
  | cookedWait hpc hsem => exact ⟨hf.tty, hcooked (hroom.1 _ _ rfl) hsem, hf.fb⟩
  | cookedLeave hsem => exact ⟨hf.tty, hcooked (by rintro _ ⟨⟩) hsem, hf.fb⟩
  | cookedSignal hpc hsem => exact ⟨hf.tty, hcooked (by rintro _ ⟨⟩) hsem, hf.fb⟩
  | wait hpc hsem => exact ⟨htty (hroom.2.1 _ _ rfl) hsem, hf.cooked, hf.fb⟩
  | leave hsem => exact ⟨htty (by rintro _ ⟨⟩) hsem, hf.cooked, hf.fb⟩
  | enter hpc hout => exact ⟨hf.tty, hf.cooked, hf.fb⟩
  | signal hpc hsem => exact ⟨htty (by rintro _ ⟨⟩) hsem, hf.cooked, hf.fb⟩
  | fbWait hpc hsem => exact ⟨hf.tty, hf.cooked, hfb (hroom.2.2 _ _ rfl) hsem⟩
  | fbLeave hsem => exact ⟨hf.tty, hf.cooked, hfb (by rintro _ ⟨⟩) hsem⟩
  | fbEnter hpc hout => exact ⟨hf.tty, hf.cooked, hf.fb⟩
  | fbSignal hpc hsem => exact ⟨hf.tty, hf.cooked, hfb (by rintro _ ⟨⟩) hsem⟩

omit [DecidableEq α] in
/-- Who has `fb_sem` waits for nothing. -/
theorem LockInv.exists_awake_fb (h : LockInv s) (hf : s.Fifo) (hpc : s.pc t = .waitFb caller) :
    ∃ u, s.Awake u := by
  cases hbl : s.fbSem.mem.blocked t with
  | false => exact ⟨t, by simpa [LockState.Awake, hpc] using hbl⟩
  | true =>
      rcases h.fb.exists_awake hf.fb hbl with ⟨u, ⟨hw, hno⟩ | hh⟩
      · refine ⟨u, ?_⟩
        cases hu : s.pc u <;> simp_all [LockState.Awake, LockPc.wantsFb]
      · refine ⟨u, ?_⟩
        cases hu : s.pc u <;> simp_all [LockState.Awake, LockPc.hasFb]

omit [DecidableEq α] in
/-- Who has locked a terminal waits for `fb_sem` at most. -/
theorem LockInv.exists_awake (h : LockInv s) (hf : s.Fifo) (ht : s.pc t ≠ .outside)
    (hline : ¬ s.WantsLine t) : ∃ u, s.Awake u := by
  cases hpc : s.pc t with
  | outside => exact absurd hpc ht
  | waitCooked k =>
      have hno : (s.cooked k).mem.blocked t = false := by
        rw [← Bool.not_eq_true]
        exact fun hbl => hline ⟨k, hpc, hbl⟩
      exact ⟨t, by simpa [LockState.Awake, hpc] using hno⟩
  | inTty k => exact ⟨t, by simp [LockState.Awake, hpc]⟩
  | inFb caller => exact ⟨t, by simp [LockState.Awake, hpc]⟩
  | waitFb caller => exact h.exists_awake_fb hf hpc
  | waitTty k =>
      cases hbl : (s.lock k).mem.blocked t with
      | false => exact ⟨t, by simpa [LockState.Awake, hpc] using hbl⟩
      | true =>
          rcases (h.tty k).exists_awake (hf.tty k) hbl with ⟨u, ⟨hw, hno⟩ | hh⟩
          · exact ⟨u, by simpa [LockState.Awake, hw] using hno⟩
          · cases hu : s.pc u with
            | waitFb caller => exact h.exists_awake_fb hf hu
            | outside => simp [hu, LockPc.tty] at hh
            | waitCooked j => simp [hu, LockPc.tty] at hh
            | waitTty j => simp [hu, LockPc.tty] at hh
            | inTty j => exact ⟨u, by simp [LockState.Awake, hu]⟩
            | inFb caller => exact ⟨u, by simp [LockState.Awake, hu]⟩

omit [DecidableEq α] in
/-- Who sleeps for a line has missed none. -/
theorem LockInv.lines (h : LockInv s) (hf : s.Fifo)
    (hbl : (s.cooked k).mem.blocked t = true) : (s.cooked k).grants = (s.cooked k).signals := by
  have hcount := (h.cooked k).count
  have hnonneg := (h.cooked k).nonneg (Int.le_refl 0)
  have hzero : ¬ 0 < (s.cooked k).mem.resource := by
    intro hpos
    have hmem := ((h.cooked k).waiting t).1 hbl
    rw [(hf.cooked k).available hpos] at hmem
    cases hmem
  omega

end Steps

/-! ## Runs -/

/-- What the locks are for, at the end of the run with history `h`. -/
structure TtyLocksSound (h : List (LockState α × LockAct α)) (s : LockState α) : Prop where
  /-- a terminal is locked by one task -/
  tty : ∀ k t u, (s.pc t).tty = some k → (s.pc u).tty = some k → t = u
  /-- one task is in `fb_write` -/
  fb : ∀ t u, (s.pc t).hasFb = true → (s.pc u).hasFb = true → t = u
  /-- the tasks that do not wait for a line are never all asleep, as long as the rings of waiters
  have room -/
  awake : AllSteps LockRoom h → ∀ t, s.pc t ≠ .outside → ¬ s.WantsLine t → ∃ u, s.Awake u
  /-- while a task sleeps for a line, a reader has been let in for every line there was -/
  lines : AllSteps LockRoom h → ∀ k t, s.pc t = .waitCooked k →
    (s.cooked k).mem.blocked t = true → (s.cooked k).grants = (s.cooked k).signals

theorem ttyLocksSound_of_run {h : List (LockState α × LockAct α)} {s : LockState α}
    (hr : LockRun h s) : TtyLocksSound h s := by
  have hinv : LockInv s := by
    refine hr.invariant (I := LockInv) ?_ fun _ _ _ hI hst => hst.inv hI
    rintro s rfl
    exact lockInv_start
  have hall : AllSteps LockRoom h → s.Fifo := by
    intro hroom
    refine (hr.invariant_of_allSteps (I := fun s => LockInv s ∧ s.Fifo) ?_
      (fun s a s' hI hC hst => ⟨hst.inv hI.1, hst.fifo hI.1 hC hI.2⟩) hroom).2.2
    rintro s rfl
    have hfifo : ∀ v, OsLab.Fifo (semStart v : SemState α) := by
      intro v
      have hring := (semInv_start (α := α) v).ring
      exact ⟨(Ring.window_eq_nil_iff hring.head_lt hring.tail_lt).2 rfl, fun _ => rfl⟩
    exact ⟨lockInv_start, fun _ => hfifo 1, fun _ => hfifo 0, hfifo 1⟩
  exact ⟨fun k t u => (hinv.tty k).unique, fun t u => hinv.fb.unique,
    fun hroom t ht => hinv.exists_awake (hall hroom) ht,
    fun hroom k t _ hbl => hinv.lines (hall hroom) hbl⟩

/-- While the task at `0` draws `tty1`, the one at `1` waits for the terminal, and the one at `2`
for a line. -/
theorem ttyLocksSound_three_tasks : ∃ h s, LockRun (α := Fin 3) h s ∧
    s.pc 0 = .inFb (some .tty1) ∧ (s.lock .tty1).mem.blocked 1 = true ∧
    (s.cooked .tty1).mem.blocked 2 = true ∧ TtyLocksSound h s := by
  have hr : LockRun (α := Fin 3) _ _ :=
    Run.snoc (Run.snoc (Run.snoc (Run.snoc (Run.snoc (Run.snoc (Run.start rfl)
      (show LockStep _ (.cookedWait 2 .tty1) _ from .cookedWait rfl (.block rfl rfl)))
      (show LockStep _ (.wait 0 .tty1) _ from .wait (Or.inl rfl) (.pass rfl rfl)))
      (show LockStep _ (.enter 0 .tty1) _ from .enter rfl rfl))
      (show LockStep _ (.fbWait 0 (some .tty1)) _ from .fbWait rfl (.pass rfl rfl)))
      (show LockStep _ (.wait 1 .tty1) _ from .wait (Or.inl rfl) (.block rfl rfl)))
      (show LockStep _ (.fbEnter 0 (some .tty1)) _ from .fbEnter rfl rfl)
  exact ⟨_, _, hr, rfl, rfl, rfl, ttyLocksSound_of_run hr⟩

end OsLab
