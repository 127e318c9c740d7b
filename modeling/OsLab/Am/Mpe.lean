import OsLab.Lib.Run
import Mathlib.Algebra.BigOperators.Group.Finset.Basic
import Mathlib.Algebra.Order.BigOperators.Group.Finset

/-! # The start of the other processors (`mpe.c`, `__am_lapic_bootap`, `_start_c`)

The boot processor starts the others one by one, and waits for each to say in `ap_ready` that it is
up. A started processor begins at the boot record, jumps to the boot loader, and runs on the stacks
that the loader and `_start` set up for whoever comes along, until it takes the one of its own
`struct cpu_local`. The processors are numbered, with 0 for the boot processor; a step is one access
to what they share.

An INIT resets a processor. A STARTUP starts one that waits for it, and does nothing to others;
`__am_lapic_bootap` sends two. `halt` is not in the model.
-/

namespace OsLab.Mp

open Trace

variable {ε : Type*}

/-- The boot processor in `mpe_init`. -/
inductive BspPc (ε : Type*)
  | enter
  /-- At the test of the loop. -/
  | loop (cpu : ℕ)
  /-- `is_ap` is set; the INIT is next. -/
  | init (cpu : ℕ)
  /-- The number of STARTUPs left to send. -/
  | startup (cpu left : ℕ)
  /-- In the loop around `xchg(&ap_ready, 0)`. -/
  | wait (cpu : ℕ)
  /-- In the entry that `user_entry` had. -/
  | user (entry : Option ε)

/-- One of the other processors. -/
inductive ApPc (ε : Type*)
  | off
  /-- Reset: it waits for a STARTUP. -/
  | reset
  /-- At the boot record. -/
  | record
  /-- In `load_kernel`, at the test of `is_ap`. -/
  | loader
  /-- In `_start_c`, at the test of `is_ap`. -/
  | start
  /-- In `othercpu_entry`, at `__am_percpu_init`. -/
  | percpu
  /-- At `xchg(&ap_ready, 1)`. -/
  | ready
  /-- At `user_entry()`. -/
  | entering
  | user (entry : Option ε)
  /-- The boot record does not lead to the loader. -/
  | lost
  /-- `load_kernel` loads the kernel. -/
  | reload
  /-- `_start_c` goes to `__am_bootcpu_init`. -/
  | bootcpu

/-- What the processors share, and where they are. -/
structure Smp (ε : Type*) where
  userEntry : Option ε
  jmpCode : ℕ
  isAp : ℕ
  apReady : ℕ
  bsp : BspPc ε
  ap : ℕ → ApPc ε

/-- Where the code at the boot record (0x7000) goes: `0xe9` is a jump by the 16 bits after it. -/
def jmpTarget (jmpCode : ℕ) : Option ℕ :=
  if jmpCode % 2 ^ 8 = 0xe9 then some (0x7000 + (3 + jmpCode / 2 ^ 8) % 2 ^ 16) else none

/-- The code that `mpe_init` puts there leads to the loader. -/
theorem jmpTarget_loader : jmpTarget 0x000bfde9 = some 0x7c00 := by decide

namespace Smp

def setAp (s : Smp ε) (cpu : ℕ) (p : ApPc ε) : Smp ε := { s with ap := Function.update s.ap cpu p }

/-- A STARTUP for `cpu`. -/
def startup (s : Smp ε) (cpu : ℕ) : Smp ε :=
  match s.ap cpu with
  | .reset => s.setAp cpu .record
  | _ => s

end Smp

/-- `mpe_init`, with `__am_lapic_bootap`. -/
def bspStep (ncpu : ℕ) (entry : ε) (s : Smp ε) : Option (Smp ε) :=
  match s.bsp with
  | .enter => some { s with userEntry := some entry, jmpCode := 0x000bfde9, bsp := .loop 1 }
  | .loop cpu =>
      if cpu < ncpu then some { s with isAp := 1, bsp := .init cpu }
      else some { s with bsp := .user s.userEntry }
  | .init cpu => some { s.setAp cpu .reset with bsp := .startup cpu 2 }
  | .startup cpu 0 => some { s with bsp := .wait cpu }
  | .startup cpu (left + 1) => some { s.startup cpu with bsp := .startup cpu left }
  | .wait cpu =>
      if s.apReady = 1 then some { s with apReady := 0, bsp := .loop (cpu + 1) }
      else some { s with apReady := 0 }
  | .user _ => none

/-- A started processor. -/
def apStep (cpu : ℕ) (s : Smp ε) : Option (Smp ε) :=
  match s.ap cpu with
  | .record => some (s.setAp cpu (if jmpTarget s.jmpCode = some 0x7c00 then .loader else .lost))
  | .loader => some (s.setAp cpu (if s.isAp = 0 then .reload else .start))
  | .start => some (s.setAp cpu (if s.isAp = 0 then .bootcpu else .percpu))
  | .percpu => some (s.setAp cpu .ready)
  | .ready => some { s.setAp cpu .entering with apReady := 1 }
  | .entering => some (s.setAp cpu (.user s.userEntry))
  | .off | .reset | .user _ | .lost | .reload | .bootcpu => none

/-- The processor 0 is the boot processor. -/
def step (ncpu : ℕ) (entry : ε) (s : Smp ε) (cpu : ℕ) (t : Smp ε) : Prop :=
  (if cpu = 0 then bspStep ncpu entry s else apStep cpu s) = some t

/-- `main` has called `mpe_init`; the boot processor went the other way at both tests of `is_ap`. -/
structure Start (s : Smp ε) : Prop where
  bsp : s.bsp = .enter
  ap : ∀ j, s.ap j = .off
  isAp : s.isAp = 0
  apReady : s.apReady = 0

/-! ## What holds in a run -/

/-- Started, and not yet up. -/
def ApPc.Coming : ApPc ε → Prop
  | .record | .loader | .start | .percpu | .ready => True
  | _ => False

/-- Past `xchg(&ap_ready, 1)`: everything is set up. -/
def ApPc.Up : ApPc ε → Prop
  | .entering | .user _ => True
  | _ => False

/-- On the stack of the loader, or on the one of `_start`. -/
def ApPc.OnBootStack : ApPc ε → Prop
  | .loader | .start | .reload | .bootcpu => True
  | _ => False

/-- The processor that is started has not signalled, or it is up and its signal is there. -/
def Handshake (apReady : ℕ) (p : ApPc ε) : Prop :=
  p.Coming ∧ apReady = 0 ∨ p.Up ∧ apReady = 1

/-- What the place of the boot processor says about the shared variables and the processor that is
started. -/
def BspOk (ncpu : ℕ) (entry : ε) (s : Smp ε) : BspPc ε → Prop
  | .enter => s.apReady = 0 ∧ s.ap 1 = .off
  | .loop cpu => s.apReady = 0 ∧ s.ap cpu = .off
  | .init cpu => s.apReady = 0 ∧ s.ap cpu = .off ∧ s.isAp ≠ 0 ∧ cpu < ncpu
  | .startup cpu left => s.isAp ≠ 0 ∧ cpu < ncpu ∧
      (left = 2 ∧ s.apReady = 0 ∧ s.ap cpu = .reset ∨ left < 2 ∧ Handshake s.apReady (s.ap cpu))
  | .wait cpu => s.isAp ≠ 0 ∧ cpu < ncpu ∧ Handshake s.apReady (s.ap cpu)
  | .user e => s.apReady = 0 ∧ s.ap (max 1 ncpu) = .off ∧ e = some entry

/-- The processor that is started, or will be next. -/
def BspPc.current (ncpu : ℕ) : BspPc ε → ℕ
  | .enter => 1
  | .loop cpu | .init cpu | .startup cpu _ | .wait cpu => cpu
  | .user _ => max 1 ncpu

/-- The processors before the current one are up, those after it are off. -/
structure MpSound (ncpu : ℕ) (entry : ε) (s : Smp ε) : Prop where
  ok : BspOk ncpu entry s s.bsp
  set : s.bsp ≠ .enter → s.userEntry = some entry ∧ jmpTarget s.jmpCode = some 0x7c00
  bound : 1 ≤ s.bsp.current ncpu ∧ s.bsp.current ncpu ≤ max 1 ncpu
  before : ∀ j, 1 ≤ j → j < s.bsp.current ncpu → (s.ap j).Up
  zero : s.ap 0 = .off
  after : ∀ j, s.bsp.current ncpu < j → s.ap j = .off
  user : ∀ j e, s.ap j = .user e → e = some entry

theorem Start.sound {ncpu : ℕ} {entry : ε} {s : Smp ε} (h : Start s) : MpSound ncpu entry s := by
  refine ⟨?_, fun hne => absurd h.bsp hne, ?_, ?_, h.ap 0, fun j _ => h.ap j, fun j e hj => ?_⟩
  · rw [h.bsp]
    exact ⟨h.apReady, h.ap 1⟩
  · rw [h.bsp]
    exact ⟨le_rfl, le_max_left 1 ncpu⟩
  · intro j hj hlt
    rw [h.bsp] at hlt
    exact absurd hlt (Nat.not_lt.2 hj)
  · rw [h.ap j] at hj
    cases hj

namespace MpSound

variable {ncpu : ℕ} {entry : ε} {s : Smp ε} {j : ℕ}

/-- Who is neither off nor reset nor up is the current one. -/
theorem eq_current (h : MpSound ncpu entry s) (hoff : s.ap j ≠ .off) (hup : ¬ (s.ap j).Up) :
    j = s.bsp.current ncpu := by
  rcases Nat.lt_trichotomy j (s.bsp.current ncpu) with hlt | heq | hgt
  · rcases Nat.eq_zero_or_pos j with rfl | hpos
    · exact absurd h.zero hoff
    · exact absurd (h.before j hpos hlt) hup
  · exact heq
  · exact absurd (h.after j hgt) hoff

/-- The current processor is off, reset, or in its handshake. -/
theorem cases_current (h : MpSound ncpu entry s) (hj : j = s.bsp.current ncpu) :
    s.apReady = 0 ∧ s.ap j = .off ∨
      s.isAp ≠ 0 ∧ j < ncpu ∧ (s.apReady = 0 ∧ s.ap j = .reset ∨
        Handshake s.apReady (s.ap j) ∧
          (s.bsp = .wait j ∨ ∃ left < 2, s.bsp = .startup j left)) := by
  have hok := h.ok
  cases hb : s.bsp with
  | enter =>
      rw [hb] at hok hj
      rw [hj]
      exact Or.inl hok
  | loop cpu =>
      rw [hb] at hok hj
      rw [hj]
      exact Or.inl hok
  | init cpu =>
      rw [hb] at hok hj
      rw [hj]
      exact Or.inl ⟨hok.1, hok.2.1⟩
  | startup cpu left =>
      rw [hb] at hok hj
      obtain rfl : j = cpu := hj
      exact Or.inr ⟨hok.1, hok.2.1, hok.2.2.imp And.right fun hh =>
        ⟨hh.2, Or.inr ⟨left, hh.1, rfl⟩⟩⟩
  | wait cpu =>
      rw [hb] at hok hj
      obtain rfl : j = cpu := hj
      exact Or.inr ⟨hok.1, hok.2.1, Or.inr ⟨hok.2.2, Or.inl rfl⟩⟩
  | user e =>
      rw [hb] at hok hj
      rw [hj]
      exact Or.inl ⟨hok.1, hok.2.1⟩

/-- A processor on its way is waited for, and has not signalled. -/
theorem coming (h : MpSound ncpu entry s) (hj : (s.ap j).Coming) :
    (s.bsp = .wait j ∨ ∃ left < 2, s.bsp = .startup j left) ∧ s.apReady = 0 ∧ s.isAp ≠ 0 := by
  have hoff : s.ap j ≠ .off := fun hp => by rw [hp] at hj; exact hj
  have hnup : ¬ (s.ap j).Up := fun hup => by
    cases hp : s.ap j <;> rw [hp] at hj hup <;> first | exact hj | exact hup
  rcases h.cases_current (h.eq_current hoff hnup) with
    ⟨-, hp⟩ | ⟨hap, -, ⟨-, hreset⟩ | ⟨hh, hb⟩⟩
  · exact absurd hp hoff
  · rw [hreset] at hj
    exact hj.elim
  · exact ⟨hb, hh.elim And.right fun hup => absurd hup.1 hnup, hap⟩

/-- A step that only changes where the current processor is, and what is shared. -/
theorem at_current (h : MpSound ncpu entry s) {s' : Smp ε} {p : ApPc ε}
    (hap : s'.ap = Function.update s.ap (s.bsp.current ncpu) p)
    (hcur : s'.bsp.current ncpu = s.bsp.current ncpu) (hok : BspOk ncpu entry s' s'.bsp)
    (hset : s'.bsp ≠ .enter → s'.userEntry = some entry ∧ jmpTarget s'.jmpCode = some 0x7c00)
    (hp : ∀ e, p = .user e → e = some entry) : MpSound ncpu entry s' := by
  have hpos := h.bound.1
  refine ⟨hok, hset, hcur ▸ h.bound, fun k hk hlt => ?_, ?_, fun k hlt => ?_, fun k e hk => ?_⟩
  · rw [hcur] at hlt
    rw [hap, Function.update_of_ne (by omega)]
    exact h.before k hk hlt
  · rw [hap, Function.update_of_ne (by omega)]
    exact h.zero
  · rw [hcur] at hlt
    rw [hap, Function.update_of_ne (by omega)]
    exact h.after k hlt
  · rw [hap] at hk
    by_cases hkc : k = s.bsp.current ncpu
    · rw [hkc, Function.update_self] at hk
      exact hp e hk
    · rw [Function.update_of_ne hkc] at hk
      exact h.user k e hk

/-- A step of the boot processor alone. -/
theorem bsp_only (h : MpSound ncpu entry s) {s' : Smp ε} (hap : s'.ap = s.ap)
    (hcur : s'.bsp.current ncpu = s.bsp.current ncpu) (hok : BspOk ncpu entry s' s'.bsp)
    (hset : s'.bsp ≠ .enter → s'.userEntry = some entry ∧ jmpTarget s'.jmpCode = some 0x7c00) :
    MpSound ncpu entry s' :=
  h.at_current (hap.trans (Function.update_eq_self _ s.ap).symm) hcur hok hset
    fun e he => h.user _ e he

/-- The processor on its way goes on. -/
theorem goOn (h : MpSound ncpu entry s) (hj : (s.ap j).Coming) {p : ApPc ε} {apReady : ℕ}
    (hp : Handshake apReady p) (hne : ∀ e, p ≠ .user e) :
    MpSound ncpu entry { s.setAp j p with apReady := apReady } := by
  obtain ⟨hb, -, -⟩ := h.coming hj
  have hcur : s.bsp.current ncpu = j := by
    rcases hb with hb | ⟨left, -, hb⟩ <;> rw [hb] <;> rfl
  have hself : Handshake apReady (Function.update s.ap j p j) := by
    rw [Function.update_self]
    exact hp
  refine h.at_current (by rw [hcur]; rfl) rfl ?_ h.set fun e he => absurd he (hne e)
  have hok := h.ok
  change BspOk ncpu entry _ s.bsp
  rcases hb with hb | ⟨left, hleft, hb⟩
  · rw [hb] at hok ⊢
    exact ⟨hok.1, hok.2.1, hself⟩
  · rw [hb] at hok ⊢
    exact ⟨hok.1, hok.2.1, Or.inr ⟨hleft, hself⟩⟩

/-- The same, without a signal. -/
theorem goOn_quiet (h : MpSound ncpu entry s) (hj : (s.ap j).Coming) {p : ApPc ε}
    (hp : p.Coming) : MpSound ncpu entry (s.setAp j p) := by
  have hquiet : s.apReady = 0 := (h.coming hj).2.1
  have hgo : MpSound ncpu entry { s.setAp j p with apReady := 0 } :=
    h.goOn hj (Or.inl ⟨hp, rfl⟩) fun e he => by rw [he] at hp; exact hp
  rw [← hquiet] at hgo
  exact hgo

/-- A processor that is up calls the entry. -/
theorem call (h : MpSound ncpu entry s) (hj : s.ap j = .entering) :
    MpSound ncpu entry (s.setAp j (.user s.userEntry)) := by
  have hoff : ∀ k, s.ap k = .off → k ≠ j := by
    rintro k hk rfl
    rw [hk] at hj
    cases hj
  have hother : ∀ k, k ≠ j → (s.setAp j (.user s.userEntry)).ap k = s.ap k := fun k hk =>
    Function.update_of_ne hk _ s.ap
  have hself : (s.setAp j (.user s.userEntry)).ap j = .user s.userEntry :=
    Function.update_self j _ s.ap
  -- before its call it was up, and the boot processor was past `enter`
  have hne : s.bsp ≠ .enter := by
    intro hb
    have hafter := h.after j
    have hok := h.ok
    rw [hb] at hok hafter
    rcases Nat.lt_trichotomy j 1 with hlt | rfl | hgt
    · obtain rfl : j = 0 := by omega
      exact hoff 0 h.zero rfl
    · exact hoff 1 hok.2 rfl
    · exact hoff j (hafter hgt) rfl
  have hentry := (h.set hne).1
  have hhand : ∀ k, Handshake s.apReady (s.ap k) →
      Handshake s.apReady ((s.setAp j (.user s.userEntry)).ap k) := by
    intro k hk
    by_cases hkj : k = j
    · subst hkj
      rw [hself]
      rw [hj] at hk
      exact Or.inr ⟨trivial, (hk.resolve_left And.left).2⟩
    · rw [hother k hkj]
      exact hk
  refine ⟨?_, h.set, h.bound, fun k hk hlt => ?_, ?_, fun k hlt => ?_, fun k e hk => ?_⟩
  · have hok := h.ok
    change BspOk ncpu entry _ s.bsp
    cases hb : s.bsp with
    | enter => exact absurd hb hne
    | loop cpu =>
        rw [hb] at hok
        exact ⟨hok.1, by rw [hother _ (hoff _ hok.2)]; exact hok.2⟩
    | init cpu =>
        rw [hb] at hok
        exact ⟨hok.1, by rw [hother _ (hoff _ hok.2.1)]; exact hok.2.1, hok.2.2⟩
    | startup cpu left =>
        rw [hb] at hok
        refine ⟨hok.1, hok.2.1, hok.2.2.imp (fun hr => ⟨hr.1, hr.2.1, ?_⟩) fun hr =>
          ⟨hr.1, hhand cpu hr.2⟩⟩
        rw [hother cpu (by rintro rfl; rw [hr.2.2] at hj; cases hj)]
        exact hr.2.2
    | wait cpu =>
        rw [hb] at hok
        exact ⟨hok.1, hok.2.1, hhand cpu hok.2.2⟩
    | user e =>
        rw [hb] at hok
        exact ⟨hok.1, by rw [hother _ (hoff _ hok.2.1)]; exact hok.2.1, hok.2.2⟩
  · by_cases hkj : k = j
    · rw [hkj, hself]
      trivial
    · rw [hother k hkj]
      exact h.before k hk hlt
  · rw [hother 0 (hoff 0 h.zero)]
    exact h.zero
  · have hk := h.after k hlt
    rw [hother k (hoff k hk)]
    exact hk
  · by_cases hkj : k = j
    · rw [hkj, hself, hentry] at hk
      cases hk
      rfl
    · rw [hother k hkj] at hk
      exact h.user k e hk

/-- A step of the boot processor. -/
theorem bspStep (h : MpSound ncpu entry s) {t : Smp ε} (hst : Mp.bspStep ncpu entry s = some t) :
    MpSound ncpu entry t := by
  have hok := h.ok
  unfold Mp.bspStep at hst
  cases hb : s.bsp with
  | enter =>
      rw [hb] at hok hst
      obtain rfl := Option.some.inj hst
      exact h.bsp_only rfl (by rw [hb]; rfl) hok fun _ => ⟨rfl, jmpTarget_loader⟩
  | loop cpu =>
      have hset := h.set (by rw [hb]; nofun)
      rw [hb] at hok hst
      dsimp only at hst
      split at hst
      · rename_i hlt
        obtain rfl := Option.some.inj hst
        exact h.bsp_only rfl (by rw [hb]; rfl) ⟨hok.1, hok.2, Nat.one_ne_zero, hlt⟩ fun _ => hset
      · -- all are started: `cpu` is one past the last
        rename_i hge
        obtain rfl := Option.some.inj hst
        have hcpu : max 1 ncpu = cpu := by
          have hbound := h.bound
          rw [hb] at hbound
          change 1 ≤ cpu ∧ cpu ≤ max 1 ncpu at hbound
          omega
        exact h.bsp_only rfl (by rw [hb]; exact hcpu) ⟨hok.1, by rw [hcpu]; exact hok.2, hset.1⟩
          fun _ => hset
  | init cpu =>
      have hset := h.set (by rw [hb]; nofun)
      rw [hb] at hok hst
      obtain rfl := Option.some.inj hst
      exact h.at_current (p := .reset) (by rw [hb]; rfl) (by rw [hb]; rfl)
        ⟨hok.2.2.1, hok.2.2.2, Or.inl ⟨rfl, hok.1, Function.update_self cpu _ s.ap⟩⟩
        (fun _ => hset) (fun _ => nofun)
  | startup cpu left =>
      have hset := h.set (by rw [hb]; nofun)
      rw [hb] at hok hst
      cases left with
      | zero =>
          obtain rfl := Option.some.inj hst
          rcases hok.2.2 with ⟨hleft, -⟩ | ⟨-, hh⟩
          · cases hleft
          · exact h.bsp_only rfl (by rw [hb]; rfl) ⟨hok.1, hok.2.1, hh⟩ fun _ => hset
      | succ left =>
          obtain rfl := Option.some.inj hst
          rcases hok.2.2 with ⟨hleft, hready, hreset⟩ | ⟨hleft, hh⟩
          · -- the first STARTUP
            have hstart : s.startup cpu = s.setAp cpu .record := by rw [Smp.startup, hreset]
            rw [hstart]
            refine h.at_current (p := .record) (by rw [hb]; rfl) (by rw [hb]; rfl)
              ⟨hok.1, hok.2.1, Or.inr ⟨by omega, Or.inl ⟨?_, hready⟩⟩⟩ (fun _ => hset)
              (fun _ => nofun)
            change (Function.update s.ap cpu .record cpu).Coming
            rw [Function.update_self]
            trivial
          · -- the second one finds the processor started
            have hstart : s.startup cpu = s := by
              unfold Smp.startup
              split
              · rename_i hreset
                rw [hreset] at hh
                exact (hh.elim And.left And.left).elim
              · rfl
            rw [hstart]
            exact h.bsp_only rfl (by rw [hb]; rfl) ⟨hok.1, hok.2.1, Or.inr ⟨by omega, hh⟩⟩
              fun _ => hset
  | wait cpu =>
      have hset := h.set (by rw [hb]; nofun)
      rw [hb] at hok hst
      dsimp only at hst
      split at hst
      · -- the processor is up, and the next one is off
        rename_i hready
        obtain rfl := Option.some.inj hst
        have hup : (s.ap cpu).Up :=
          (hok.2.2.resolve_left fun hc => by rw [hc.2] at hready; cases hready).1
        have hbound := h.bound
        have hafter := h.after
        have hbefore := h.before
        rw [hb] at hbound hafter hbefore
        change 1 ≤ cpu ∧ cpu ≤ max 1 ncpu at hbound
        have hlt := hok.2.1
        refine ⟨⟨rfl, hafter (cpu + 1) (Nat.lt_succ_self cpu)⟩, fun _ => hset, ?_, ?_, h.zero, ?_,
          h.user⟩
        · change 1 ≤ cpu + 1 ∧ cpu + 1 ≤ max 1 ncpu
          omega
        · intro j hj hjc
          change j < cpu + 1 at hjc
          rcases Nat.lt_succ_iff_lt_or_eq.1 hjc with hjc | rfl
          · exact hbefore j hj hjc
          · exact hup
        · intro j hj
          exact hafter j (Nat.lt_of_succ_lt hj)
      · -- the exchange stores the 0 that was there
        rename_i hready
        obtain rfl := Option.some.inj hst
        have hhand := hok.2.2.resolve_right fun hup => hready hup.2
        exact h.bsp_only rfl (by rw [hb]) ⟨hok.1, hok.2.1, Or.inl ⟨hhand.1, rfl⟩⟩ fun _ => hset
  | user e =>
      rw [hb] at hst
      cases hst

/-- A step of a started processor. -/
theorem apStep (h : MpSound ncpu entry s) {t : Smp ε} (hst : Mp.apStep j s = some t) :
    MpSound ncpu entry t := by
  unfold Mp.apStep at hst
  cases hp : s.ap j with
  | record =>
      have hc : (s.ap j).Coming := by rw [hp]; trivial
      obtain ⟨hb, -, -⟩ := h.coming hc
      have hset := h.set (by rcases hb with hb | ⟨left, -, hb⟩ <;> rw [hb] <;> nofun)
      rw [hp] at hst
      obtain rfl := Option.some.inj hst
      rw [if_pos hset.2]
      exact h.goOn_quiet hc trivial
  | loader =>
      have hc : (s.ap j).Coming := by rw [hp]; trivial
      have hap := (h.coming hc).2.2
      rw [hp] at hst
      obtain rfl := Option.some.inj hst
      rw [if_neg hap]
      exact h.goOn_quiet hc trivial
  | start =>
      have hc : (s.ap j).Coming := by rw [hp]; trivial
      have hap := (h.coming hc).2.2
      rw [hp] at hst
      obtain rfl := Option.some.inj hst
      rw [if_neg hap]
      exact h.goOn_quiet hc trivial
  | percpu =>
      have hc : (s.ap j).Coming := by rw [hp]; trivial
      rw [hp] at hst
      obtain rfl := Option.some.inj hst
      exact h.goOn_quiet hc trivial
  | ready =>
      have hc : (s.ap j).Coming := by rw [hp]; trivial
      rw [hp] at hst
      obtain rfl := Option.some.inj hst
      exact h.goOn hc (Or.inr ⟨trivial, rfl⟩) nofun
  | entering =>
      rw [hp] at hst
      obtain rfl := Option.some.inj hst
      exact h.call hp
  | off => rw [hp] at hst; cases hst
  | reset => rw [hp] at hst; cases hst
  | user e => rw [hp] at hst; cases hst
  | lost => rw [hp] at hst; cases hst
  | reload => rw [hp] at hst; cases hst
  | bootcpu => rw [hp] at hst; cases hst

/-- Each step keeps it. -/
theorem step (h : MpSound ncpu entry s) {t : Smp ε} {cpu : ℕ} (hst : Mp.step ncpu entry s cpu t) :
    MpSound ncpu entry t := by
  unfold Mp.step at hst
  split at hst
  · exact h.bspStep hst
  · exact h.apStep hst

end MpSound

/-! ## Safety -/

/-- What the start of the processors promises. -/
structure BringUp (ncpu : ℕ) (entry : ε) (s : Smp ε) : Prop where
  /-- The stacks of the loader and of `_start` have one user at most. -/
  stack : ∀ j k, (s.ap j).OnBootStack → (s.ap k).OnBootStack → j = k
  /-- Nobody gets lost, loads the kernel again or starts as a boot processor. -/
  way : ∀ j, s.ap j ≠ .lost ∧ s.ap j ≠ .reload ∧ s.ap j ≠ .bootcpu
  /-- The boot processor calls the entry when all others are up. -/
  all : ∀ e, s.bsp = .user e → e = some entry ∧ ∀ j, 1 ≤ j → j < ncpu → (s.ap j).Up
  /-- The others call the same entry, and there are no more of them. -/
  user : ∀ j e, s.ap j = .user e → e = some entry ∧ 1 ≤ j ∧ j < ncpu
  /-- A signal is from the processor that the boot processor waits for, or will wait for next. -/
  signal : s.apReady = 1 →
    ∃ j, (s.ap j).Up ∧ (s.bsp = .wait j ∨ ∃ left < 2, s.bsp = .startup j left)

namespace MpSound

variable {ncpu : ℕ} {entry : ε} {s : Smp ε} {j : ℕ}

/-- Each processor is off, reset, coming or up. -/
theorem place (h : MpSound ncpu entry s) (j : ℕ) :
    s.ap j = .off ∨ s.ap j = .reset ∨ (s.ap j).Coming ∨ (s.ap j).Up := by
  rcases Nat.lt_trichotomy j (s.bsp.current ncpu) with hlt | heq | hgt
  · rcases Nat.eq_zero_or_pos j with rfl | hpos
    · exact Or.inl h.zero
    · exact Or.inr (Or.inr (Or.inr (h.before j hpos hlt)))
  · rcases h.cases_current heq with ⟨-, hp⟩ | ⟨-, -, ⟨-, hreset⟩ | ⟨hh, -⟩⟩
    · exact Or.inl hp
    · exact Or.inr (Or.inl hreset)
    · exact Or.inr (Or.inr (hh.imp And.left And.left))
  · exact Or.inl (h.after j hgt)

/-- Only processors that there are leave `off`. -/
theorem lt_of_ne_off (h : MpSound ncpu entry s) (hj : s.ap j ≠ .off) : j < ncpu := by
  have hbound := h.bound
  have hpos : j ≠ 0 := fun h0 => hj (h0 ▸ h.zero)
  rcases Nat.lt_trichotomy j (s.bsp.current ncpu) with hlt | heq | hgt
  · omega
  · rcases h.cases_current heq with ⟨-, hp⟩ | ⟨-, hlt, -⟩
    · exact absurd hp hj
    · exact hlt
  · exact absurd (h.after j hgt) hj

theorem bringUp (h : MpSound ncpu entry s) : BringUp ncpu entry s where
  stack j k hj hk := by
    have hcur : ∀ i, (s.ap i).OnBootStack → i = s.bsp.current ncpu := by
      intro i hi
      refine h.eq_current (fun hp => by rw [hp] at hi; exact hi) fun hup => ?_
      cases hp : s.ap i <;> rw [hp] at hi hup <;> first | exact hi | exact hup
    rw [hcur j hj, hcur k hk]
  way j := by
    refine ⟨fun hp => ?_, fun hp => ?_, fun hp => ?_⟩ <;>
    · rcases h.place j with hj | hj | hj | hj <;> rw [hp] at hj <;> cases hj
  all e he := by
    have hok := h.ok
    have hbefore := h.before
    rw [he] at hok hbefore
    exact ⟨hok.2.2, fun j hj hlt => hbefore j hj (lt_max_of_lt_right hlt)⟩
  user j e hj := by
    have hup : (s.ap j).Up := by rw [hj]; trivial
    have hoff : s.ap j ≠ .off := by rw [hj]; nofun
    have hpos : 1 ≤ j := Nat.one_le_iff_ne_zero.2 fun h0 => hoff (h0 ▸ h.zero)
    exact ⟨h.user j e hj, hpos, h.lt_of_ne_off hoff⟩
  signal hr := by
    have hne : s.apReady ≠ 0 := by rw [hr]; exact Nat.one_ne_zero
    rcases h.cases_current rfl with ⟨hz, -⟩ | ⟨-, -, ⟨hz, -⟩ | ⟨hh, hb⟩⟩
    · exact absurd hz hne
    · exact absurd hz hne
    · exact ⟨_, (hh.resolve_left fun hc => hne hc.2).1, hb⟩

end MpSound

/-- The start of the processors in every run. -/
theorem bringUp_of_run {ncpu : ℕ} {entry : ε} {hist : List (Smp ε × ℕ)} {s : Smp ε}
    (hrun : Run Start (step ncpu entry) hist s) : AllStates (BringUp ncpu entry) hist s := by
  have hsound := hrun.invariant_all (fun _ hs => hs.sound) fun _ _ _ hs hst =>
    MpSound.step hs hst
  exact ⟨fun p hp => (hsound.1 p hp).bringUp, hsound.2.bringUp⟩

section TwoProcessors

def twoProcessors : Smp Unit := ⟨none, 0, 0, 0, .enter, fun _ => .off⟩

/-- The second processor signals before it is waited for. -/
theorem twoProcessors_run : ∃ hist s, Run Start (step 2 ()) hist s ∧
    s.bsp = .startup 1 1 ∧ s.ap 1 = .entering ∧ s.apReady = 1 := by
  have h0 : Run Start (step 2 ()) [] twoProcessors := Run.start ⟨rfl, fun _ => rfl, rfl, rfl⟩
  have h1 := h0.snoc (e := 0) (by rfl)
  have h2 := h1.snoc (e := 0) (by rfl)
  have h3 := h2.snoc (e := 0) (by rfl)
  have h4 := h3.snoc (e := 0) (by rfl)
  have h5 := h4.snoc (e := 1) (by rfl)
  have h6 := h5.snoc (e := 1) (by rfl)
  have h7 := h6.snoc (e := 1) (by rfl)
  have h8 := h7.snoc (e := 1) (by rfl)
  have h9 := h8.snoc (e := 1) (by rfl)
  exact ⟨_, _, h9, rfl, rfl, rfl⟩

end TwoProcessors

theorem bringUp_twoProcessors : ∃ hist s, Run Start (step 2 ()) hist s ∧
    s.bsp = .startup 1 1 ∧ s.ap 1 = .entering ∧ s.apReady = 1 ∧
      AllStates (BringUp 2 ()) hist s := by
  obtain ⟨hist, s, hrun, hbsp, hap, hready⟩ := twoProcessors_run
  exact ⟨hist, s, hrun, hbsp, hap, hready, bringUp_of_run hrun⟩

/-! ## Progress -/

/-- How far a processor is from the entry. -/
def ApPc.weight : ApPc ε → ℕ
  | .off => 8
  | .reset => 7
  | .record => 6
  | .loader => 5
  | .start => 4
  | .percpu => 3
  | .ready => 2
  | .entering => 1
  | .user _ | .lost | .reload | .bootcpu => 0

def BspPc.weight (ncpu : ℕ) : BspPc ε → ℕ
  | .enter => 6 * ncpu + 7
  | .loop cpu => 6 * (ncpu - cpu) + 6
  | .init cpu => 6 * (ncpu - cpu) + 5
  | .startup cpu left => 6 * (ncpu - cpu) + 2 + left
  | .wait cpu => 6 * (ncpu - cpu) + 1
  | .user _ => 0

def Smp.weight (ncpu : ℕ) (s : Smp ε) : ℕ :=
  s.bsp.weight ncpu + ∑ j ∈ Finset.range ncpu, (s.ap j).weight

/-- All processors are in the entry. -/
def Entered (ncpu : ℕ) (entry : ε) (s : Smp ε) : Prop :=
  s.bsp = .user (some entry) ∧ ∀ j, 1 ≤ j → j < ncpu → s.ap j = .user (some entry)

section Weight

variable {ncpu j : ℕ} {f : ℕ → ApPc ε} {p : ApPc ε}

theorem sum_weight_le (h : p.weight ≤ (f j).weight) :
    ∑ k ∈ Finset.range ncpu, (Function.update f j p k).weight ≤
      ∑ k ∈ Finset.range ncpu, (f k).weight := by
  refine Finset.sum_le_sum fun k _ => ?_
  by_cases hkj : k = j
  · rw [hkj, Function.update_self]
    exact h
  · rw [Function.update_of_ne hkj]

theorem sum_weight_lt (h : p.weight < (f j).weight) (hj : j < ncpu) :
    ∑ k ∈ Finset.range ncpu, (Function.update f j p k).weight <
      ∑ k ∈ Finset.range ncpu, (f k).weight := by
  refine Finset.sum_lt_sum (fun k _ => ?_) ⟨j, Finset.mem_range.2 hj, ?_⟩
  · by_cases hkj : k = j
    · rw [hkj, Function.update_self]
      exact h.le
    · rw [Function.update_of_ne hkj]
  · rw [Function.update_self]
    exact h

end Weight

/-- A processor that is coming, or about to call the entry, has a step, and comes nearer by it. -/
theorem apStep_weight {s : Smp ε} {j : ℕ} (hj : (s.ap j).Coming ∨ s.ap j = .entering) :
    ∃ t p, apStep j s = some t ∧ t.bsp = s.bsp ∧ t.ap = Function.update s.ap j p ∧
      p.weight < (s.ap j).weight := by
  unfold apStep
  cases hp : s.ap j with
  | record =>
      refine ⟨_, _, rfl, rfl, rfl, ?_⟩
      split <;> simp [ApPc.weight]
  | loader =>
      refine ⟨_, _, rfl, rfl, rfl, ?_⟩
      split <;> simp [ApPc.weight]
  | start =>
      refine ⟨_, _, rfl, rfl, rfl, ?_⟩
      split <;> simp [ApPc.weight]
  | percpu => exact ⟨_, _, rfl, rfl, rfl, by simp [ApPc.weight]⟩
  | ready => exact ⟨_, _, rfl, rfl, rfl, by simp [ApPc.weight]⟩
  | entering => exact ⟨_, .user s.userEntry, rfl, rfl, rfl, Nat.one_pos⟩
  | off => rw [hp] at hj; rcases hj with hj | hj <;> cases hj
  | reset => rw [hp] at hj; rcases hj with hj | hj <;> cases hj
  | user e => rw [hp] at hj; rcases hj with hj | hj <;> cases hj
  | lost => rw [hp] at hj; rcases hj with hj | hj <;> cases hj
  | reload => rw [hp] at hj; rcases hj with hj | hj <;> cases hj
  | bootcpu => rw [hp] at hj; rcases hj with hj | hj <;> cases hj

namespace MpSound

variable {ncpu : ℕ} {entry : ε} {s : Smp ε}

/-- The step of a processor that is not the boot processor makes the weight smaller. -/
theorem apStep_down (h : MpSound ncpu entry s) {j : ℕ}
    (hj : (s.ap j).Coming ∨ s.ap j = .entering) :
    ∃ cpu t, Mp.step ncpu entry s cpu t ∧ t.weight ncpu < s.weight ncpu := by
  have hoff : s.ap j ≠ .off := fun hp => by
    rw [hp] at hj
    rcases hj with hj | hj <;> cases hj
  have hzero : j ≠ 0 := fun h0 => hoff (h0 ▸ h.zero)
  obtain ⟨t, p, hst, hbsp, hap, hlt⟩ := apStep_weight hj
  refine ⟨j, t, by rw [Mp.step, if_neg hzero]; exact hst, ?_⟩
  rw [Smp.weight, Smp.weight, hbsp, hap]
  exact Nat.add_lt_add_left (sum_weight_lt hlt (h.lt_of_ne_off hoff)) _

/-- Until all processors are in the entry, some processor has a step that brings that nearer. -/
theorem down (h : MpSound ncpu entry s) (hgoal : ¬ Entered ncpu entry s) :
    ∃ cpu t, Mp.step ncpu entry s cpu t ∧ t.weight ncpu < s.weight ncpu := by
  have hbsp : ∀ t, Mp.bspStep ncpu entry s = some t → t.weight ncpu < s.weight ncpu →
      ∃ cpu t, Mp.step ncpu entry s cpu t ∧ t.weight ncpu < s.weight ncpu := fun t hst hlt =>
    ⟨0, t, by rw [Mp.step, if_pos rfl]; exact hst, hlt⟩
  have hok := h.ok
  unfold Mp.bspStep at hbsp
  cases hb : s.bsp with
  | enter =>
      rw [hb] at hbsp
      refine hbsp _ rfl ?_
      rw [Smp.weight, Smp.weight, hb]
      refine Nat.add_lt_add_right ?_ _
      change 6 * (ncpu - 1) + 6 < 6 * ncpu + 7
      omega
  | loop cpu =>
      rw [hb] at hbsp
      dsimp only at hbsp
      by_cases hlt : cpu < ncpu
      · rw [if_pos hlt] at hbsp
        refine hbsp _ rfl ?_
        rw [Smp.weight, Smp.weight, hb]
        exact Nat.add_lt_add_right (Nat.lt_succ_self _) _
      · rw [if_neg hlt] at hbsp
        refine hbsp _ rfl ?_
        rw [Smp.weight, Smp.weight, hb]
        exact Nat.add_lt_add_right (Nat.succ_pos _) _
  | init cpu =>
      rw [hb] at hbsp hok
      refine hbsp _ rfl ?_
      rw [Smp.weight, Smp.weight, hb]
      refine Nat.add_lt_add_of_lt_of_le (Nat.lt_succ_self _) (sum_weight_le ?_)
      rw [hok.2.1]
      simp [ApPc.weight]
  | startup cpu left =>
      rw [hb] at hbsp
      cases left with
      | zero =>
          refine hbsp _ rfl ?_
          rw [Smp.weight, Smp.weight, hb]
          exact Nat.add_lt_add_right (Nat.lt_succ_self _) _
      | succ left =>
          refine hbsp _ rfl ?_
          rw [Smp.weight, Smp.weight, hb]
          refine Nat.add_lt_add_of_lt_of_le (Nat.lt_succ_self _) ?_
          change ∑ j ∈ Finset.range ncpu, ((s.startup cpu).ap j).weight ≤ _
          unfold Smp.startup
          split
          · rename_i hreset
            exact sum_weight_le (by rw [hreset]; simp [ApPc.weight])
          · exact le_rfl
  | wait cpu =>
      rw [hb] at hok
      rcases hok.2.2 with ⟨hc, -⟩ | ⟨-, hready⟩
      · exact h.apStep_down (Or.inl hc)
      · rw [hb] at hbsp
        dsimp only at hbsp
        rw [if_pos hready] at hbsp
        refine hbsp _ rfl ?_
        rw [Smp.weight, Smp.weight, hb]
        refine Nat.add_lt_add_right ?_ _
        change 6 * (ncpu - (cpu + 1)) + 6 < 6 * (ncpu - cpu) + 1
        have hlt := hok.2.1
        omega
  | user e =>
      -- somebody has not called the entry yet
      obtain ⟨he, hall⟩ := h.bringUp.all e hb
      have hex : ∃ j, 1 ≤ j ∧ j < ncpu ∧ s.ap j ≠ .user (some entry) := by
        by_contra hno
        refine hgoal ⟨by rw [hb, he], fun j hj hlt => ?_⟩
        by_contra hne
        exact hno ⟨j, hj, hlt, hne⟩
      obtain ⟨j, hj, hlt, hne⟩ := hex
      have hup := hall j hj hlt
      refine h.apStep_down (j := j) (Or.inr ?_)
      cases hp : s.ap j with
      | entering => rfl
      | user e => exact absurd (by rw [hp, h.user j e hp]) hne
      | _ => rw [hp] at hup; exact hup.elim

end MpSound

/-- From every state of every run all processors can get to the entry. -/
theorem bringUp_can_finish {ncpu : ℕ} {entry : ε} {hist : List (Smp ε × ℕ)} {s : Smp ε}
    (hrun : Run Start (step ncpu entry) hist s) :
    ∃ t, Relation.ReflTransGen (fun a b => ∃ cpu, step ncpu entry a cpu b) s t ∧
      Entered ncpu entry t := by
  have hsound := hrun.invariant (I := MpSound ncpu entry) (fun _ hs => hs.sound)
    fun _ _ _ hs hst => MpSound.step hs hst
  obtain ⟨t, ht, -, hgoal⟩ := exists_goal_of_measure (Smp.weight ncpu)
    (fun _ _ _ hs hst => MpSound.step hs hst) (fun _ hs hg => hs.down hg) hsound
  exact ⟨t, ht, hgoal⟩

theorem bringUp_finish_twoProcessors : ∃ hist s t, Run Start (step 2 ()) hist s ∧
    s.bsp = .startup 1 1 ∧ s.ap 1 = .entering ∧
      Relation.ReflTransGen (fun a b => ∃ cpu, step 2 () a cpu b) s t ∧ Entered 2 () t := by
  obtain ⟨hist, s, hrun, hbsp, hap, -⟩ := twoProcessors_run
  obtain ⟨t, ht⟩ := bringUp_can_finish hrun
  exact ⟨hist, s, t, hrun, hbsp, hap, ht⟩

end OsLab.Mp
