import OsLab.Slab.Layout
import OsLab.Lib.Run

/-! # `slab_alloc` and `slab_free` step by step

The same functions as in `Slab.Basic`, now with any number of CPUs inside them at
once. One step is one lock, try-lock or unlock, one read or write of a list
pointer (`append`, `slabs_of_cpu`), one read of `free_block_num` in the search of
`slab_alloc`, or the work on the free list of the slab whose lock is held.
A CPU that finds a lock taken in `_lock` spins: its step reads the lock word and
changes nothing.

`page_free` makes its page free, and `page_alloc` may give any free page to
`slab_init` or to somebody else (`user`), who then writes into it what he likes.
The block that a slab gives out is live from then on, and until `slab_free` has
put it back.
-/

namespace OsLab

open PtrList Trace

/-- The fields of `struct SLAB`; the free list as the list of its blocks. -/
structure SlabRec where
  locked : Bool
  cpuId : ℕ
  type : ℕ
  blockNum : ℕ
  freeList : List ℕ
  freeBlockNum : ℕ
  append : Option ℕ

/-- What a page is in use for, as far as `page_alloc` knows. -/
inductive PageUse
  | free
  | user
  | slab
deriving DecidableEq, Repr

/-- What a CPU does next. `k` is a class index, `S`, `N`, `prev` are slabs, `b` is a block. -/
inductive SlabPc
  | idle
  -- `slab_alloc`
  | readHead (k : ℕ)
  | lockHead (k S : ℕ)
  | readCount (k S : ℕ)
  | testAppend (k S : ℕ)
  | unlockLast (k S : ℕ)
  | readAppend (k S : ℕ)
  | lockNext (k S N : ℕ)
  | unlockSlab (k S N : ℕ)
  | advance (k S N : ℕ)
  -- `slab_init` and the lock behind it
  | newPage (k : ℕ)
  | format (k S : ℕ)
  | linkNew (k S : ℕ)
  | pushNew (k S : ℕ)
  | lockNew (k S : ℕ)
  | testNew (k S : ℕ)
  -- `alloc_block_from_slab` and the unlock behind it
  | takeBlock (k S : ℕ)
  | unlockTaken (S b : ℕ)
  -- `slab_free`
  | lockOwn (b : ℕ)
  | putBlock (b : ℕ)
  | unlockOwn (S : ℕ)
  -- `recover_slab`
  | tryOwn (S : ℕ)
  | recoverHead (S : ℕ)
  | walk (S prev : ℕ)
  | tryPrev (S prev : ℕ)
  | readLink (S prev : ℕ)
  | unlink (S prev : ℕ) (next : Option ℕ)
  | giveBack (S prev : ℕ)
  | unlockPrev (prev : ℕ)
deriving DecidableEq, Repr

namespace SlabPc

/-- The slab whose fields the next step reads or writes, but for a page that is being formatted. -/
def touches : SlabPc → Option ℕ
  | lockHead _ S | readCount _ S | testAppend _ S | unlockLast _ S | readAppend _ S => some S
  | lockNext _ _ N => some N
  | unlockSlab _ S _ | advance _ S _ => some S
  | linkNew _ S | lockNew _ S | testNew _ S | takeBlock _ S | unlockTaken S _ => some S
  | lockOwn b | putBlock b => some (slabOf b)
  | unlockOwn S | tryOwn S | recoverHead S => some S
  | walk _ prev | tryPrev _ prev => some prev
  | readLink S _ => some S
  | unlink _ prev _ | unlockPrev prev => some prev
  | idle | readHead _ | newPage _ | format _ _ | pushNew _ _ | giveBack _ _ => none

/-- The slabs whose locks the CPU holds. -/
def holds : SlabPc → List ℕ
  | readCount _ S | testAppend _ S | unlockLast _ S | readAppend _ S | lockNext _ S _ => [S]
  | unlockSlab _ S N => [S, N]
  | advance _ _ N => [N]
  | testNew _ S | takeBlock _ S | unlockTaken S _ => [S]
  | putBlock b => [slabOf b]
  | unlockOwn S | tryOwn S | recoverHead S | walk S _ | tryPrev S _ => [S]
  | readLink S prev | unlink S prev _ | giveBack S prev => [S, prev]
  | unlockPrev prev => [prev]
  | _ => []

/-- The page that the CPU makes a slab of. -/
def making : SlabPc → Option ℕ
  | format _ S | linkNew _ S | pushNew _ S => some S
  | _ => none

/-- The slab whose `append` or lock the CPU is about to use although it does not hold its lock. -/
def cursor : SlabPc → Option ℕ
  | advance _ S _ => some S
  | walk _ prev | tryPrev _ prev => some prev
  | _ => none

/-- The block on its way out of or into the allocator. -/
def block : SlabPc → Option ℕ
  | unlockTaken _ b | lockOwn b | putBlock b => some b
  | _ => none

/-- The slab that is passed to `page_free` in the next step. -/
def returns : SlabPc → Option ℕ
  | giveBack S _ => some S
  | _ => none

end SlabPc

/-- The slabs, `slabs_of_cpu`, the pages, the blocks given out and where every CPU is. `returned`
marks the pages that `recover_slab` has passed to `page_free` and that were not formatted since. -/
structure SlabConc where
  slab : ℕ → SlabRec
  head : ℕ → ℕ → Option ℕ
  pages : ℕ → PageUse
  returned : ℕ → Bool
  live : List ℕ
  pc : ℕ → SlabPc

namespace SlabConc

/-- CPU `c` is at `p` next. -/
def goto (s : SlabConc) (c : ℕ) (p : SlabPc) : SlabConc :=
  { s with pc := Function.update s.pc c p }

def setSlab (s : SlabConc) (S : ℕ) (r : SlabRec) : SlabConc :=
  { s with slab := Function.update s.slab S r }

def setLocked (s : SlabConc) (S : ℕ) (v : Bool) : SlabConc :=
  s.setSlab S { s.slab S with locked := v }

def setAppend (s : SlabConc) (S : ℕ) (p : Option ℕ) : SlabConc :=
  s.setSlab S { s.slab S with append := p }

section Fields

variable (s : SlabConc) (c S : ℕ) (p : SlabPc) (r : SlabRec)

@[simp] theorem goto_slab : (s.goto c p).slab = s.slab := rfl
@[simp] theorem goto_head : (s.goto c p).head = s.head := rfl
@[simp] theorem goto_pages : (s.goto c p).pages = s.pages := rfl
@[simp] theorem goto_returned : (s.goto c p).returned = s.returned := rfl
@[simp] theorem goto_live : (s.goto c p).live = s.live := rfl
@[simp] theorem goto_pc_self : (s.goto c p).pc c = p := Function.update_self _ _ _

theorem goto_pc_of_ne {d : ℕ} (h : d ≠ c) : (s.goto c p).pc d = s.pc d :=
  Function.update_of_ne h _ _

@[simp] theorem setSlab_head : (s.setSlab S r).head = s.head := rfl
@[simp] theorem setSlab_pages : (s.setSlab S r).pages = s.pages := rfl
@[simp] theorem setSlab_returned : (s.setSlab S r).returned = s.returned := rfl
@[simp] theorem setSlab_live : (s.setSlab S r).live = s.live := rfl
@[simp] theorem setSlab_pc : (s.setSlab S r).pc = s.pc := rfl
@[simp] theorem setSlab_slab_self : (s.setSlab S r).slab S = r := Function.update_self _ _ _

theorem setSlab_slab_of_ne {N : ℕ} (h : N ≠ S) : (s.setSlab S r).slab N = s.slab N :=
  Function.update_of_ne h _ _

end Fields

/-- `_lock`: goes on to `p` with the lock, or spins. -/
def acquire (s : SlabConc) (c S : ℕ) (p : SlabPc) : SlabConc :=
  if (s.slab S).locked then s else (s.setLocked S true).goto c p

/-- `_unlock`. -/
def release (s : SlabConc) (c S : ℕ) (p : SlabPc) : SlabConc := (s.setLocked S false).goto c p

/-- `_try_lock`: goes on to `p` with the lock, or to `q`. -/
def attempt (s : SlabConc) (c S : ℕ) (p q : SlabPc) : SlabConc :=
  if (s.slab S).locked then s.goto c q else (s.setLocked S true).goto c p

end SlabConc

/-- What `slab_init` writes into the page `S`, but for the link. -/
def freshSlab (cpu k S : ℕ) (link : Option ℕ) : SlabRec where
  locked := false
  cpuId := cpu
  type := k + S_8B
  blockNum := slabBlockNum (k + S_8B)
  freeList := (slabBlocks S (k + S_8B)).reverse
  freeBlockNum := slabBlockNum (k + S_8B)
  append := link

/-- The next step of CPU `c`; `none` where it has nothing to do, waits for `page_alloc`, or follows
`NULL`. -/
def slabStep (s : SlabConc) (c : ℕ) : Option SlabConc :=
  match s.pc c with
  | .idle => none
  | .readHead k =>
      match s.head c k with
      | none => some (s.goto c (.newPage k))
      | some S => some (s.goto c (.lockHead k S))
  | .lockHead k S => some (s.acquire c S (.readCount k S))
  | .readCount k S =>
      if (s.slab S).freeBlockNum > 0 then some (s.goto c (.takeBlock k S))
      else some (s.goto c (.testAppend k S))
  | .testAppend k S =>
      match (s.slab S).append with
      | none => some (s.goto c (.unlockLast k S))
      | some _ => some (s.goto c (.readAppend k S))
  | .unlockLast k S => some (s.release c S (.newPage k))
  | .readAppend k S => (s.slab S).append.map fun N => s.goto c (.lockNext k S N)
  | .lockNext k S N => some (s.acquire c N (.unlockSlab k S N))
  | .unlockSlab k S N => some (s.release c S (.advance k S N))
  -- the lock of `S` is released, and yet its link is read once more
  | .advance k S _ => (s.slab S).append.map fun N => s.goto c (.readCount k N)
  | .newPage _ => none
  | .format k S =>
      some (({ s with returned := Function.update s.returned S false }.setSlab S
        (freshSlab c k S (s.slab S).append)).goto c (.linkNew k S))
  | .linkNew k S => some ((s.setAppend S (s.head c k)).goto c (.pushNew k S))
  | .pushNew k S =>
      some ({ s with
        head := Function.update s.head c (Function.update (s.head c) k (some S)) }.goto c
          (.lockNew k S))
  | .lockNew k S => some (s.acquire c S (.testNew k S))
  | .testNew k S =>
      if (s.slab S).freeBlockNum ≤ 0 then some (s.goto c (.unlockOwn S))
      else some (s.goto c (.takeBlock k S))
  | .takeBlock _ S =>
      if (s.slab S).freeBlockNum ≤ 0 then some (s.goto c (.unlockOwn S))
      else
        match (s.slab S).freeList with
        | [] => none
        | b :: rest =>
            some (({ s with live := b :: s.live }.setSlab S
              { s.slab S with freeList := rest, freeBlockNum := (s.slab S).freeBlockNum - 1 }).goto c
                (.unlockTaken S b))
  | .unlockTaken S _ => some (s.release c S .idle)
  | .lockOwn b => some (s.acquire c (slabOf b) (.putBlock b))
  | .putBlock b =>
      let S := slabOf b
      let r := { s.slab S with
        freeList := b :: (s.slab S).freeList
        freeBlockNum := (s.slab S).freeBlockNum + 1 }
      some (({ s with live := s.live.erase b }.setSlab S r).goto c
        (if r.freeBlockNum = r.blockNum then .tryOwn S else .unlockOwn S))
  | .unlockOwn S => some (s.release c S .idle)
  | .tryOwn S =>
      if (s.slab S).freeBlockNum < (s.slab S).blockNum then some (s.goto c (.unlockOwn S))
      else some (s.attempt c S (.unlockOwn S) (.recoverHead S))
  | .recoverHead S =>
      (s.head (s.slab S).cpuId ((s.slab S).type - SLAB_SIZE_OFFSET)).map fun H =>
        if H = S then s.goto c (.unlockOwn S) else s.goto c (.walk S H)
  | .walk S prev =>
      match (s.slab prev).append with
      | none => some (s.goto c (.unlockOwn S))
      | some R => if R = S then some (s.goto c (.tryPrev S prev)) else some (s.goto c (.walk S R))
  | .tryPrev S prev => some (s.attempt c prev (.readLink S prev) (.unlockOwn S))
  | .readLink S prev => some (s.goto c (.unlink S prev (s.slab S).append))
  | .unlink S prev next => some ((s.setAppend prev next).goto c (.giveBack S prev))
  | .giveBack S prev =>
      some ({ s with
        pages := Function.update s.pages S .free
        returned := Function.update s.returned S true }.goto c (.unlockPrev prev))
  | .unlockPrev prev => some (s.release c prev .idle)

inductive SlabEvent
  | callAlloc (cpu k : ℕ)
  | callFree (cpu b : ℕ)
  | step (cpu : ℕ)
  | page (cpu : ℕ) (answer : Option ℕ)
  | userTake (S : ℕ)
  | userWrite (S : ℕ) (r : SlabRec)
  | userGive (S : ℕ)

/-- What an event does on `n` CPUs; `none` where it cannot happen. `slab_free` is called with live
blocks only, and with each of them once. -/
def slabExec (n : ℕ) (s : SlabConc) : SlabEvent → Option SlabConc
  | .callAlloc c k =>
      if c < n ∧ s.pc c = .idle ∧ k + S_8B < S_REFUSE then some (s.goto c (.readHead k)) else none
  | .callFree c b =>
      if c < n ∧ s.pc c = .idle ∧ b ∈ s.live ∧ ∀ d < n, (s.pc d).block ≠ some b then
        some (s.goto c (.lockOwn b))
      else none
  | .step c => if c < n then slabStep s c else none
  | .page c answer =>
      match s.pc c, answer with
      | .newPage _, none => some (s.goto c .idle)
      | .newPage k, some S =>
          if 2 ^ 12 ∣ S ∧ s.pages S = .free then
            some ({ s with pages := Function.update s.pages S .slab }.goto c (.format k S))
          else none
      | _, _ => none
  | .userTake S =>
      if s.pages S = .free then some { s with pages := Function.update s.pages S .user } else none
  | .userWrite S r => if s.pages S = .user then some (s.setSlab S r) else none
  | .userGive S =>
      if s.pages S = .user then some { s with pages := Function.update s.pages S .free } else none

/-- The states `slab_system_init` can leave: a list is empty or has one new slab. -/
structure SlabStart (s : SlabConc) : Prop where
  idle : ∀ c, s.pc c = .idle
  live : s.live = []
  returned : ∀ S, s.returned S = false
  heads : ∀ cpu k S, s.head cpu k = some S → s.slab S = freshSlab cpu k S none ∧
    s.pages S = .slab ∧ 2 ^ 12 ∣ S ∧ k + S_8B < S_REFUSE

/-- Runs of `n` CPUs. -/
def SlabRun (n : ℕ) : List (SlabConc × SlabEvent) → SlabConc → Prop :=
  Run SlabStart fun s e s' => slabExec n s e = some s'

/-! ## What a step touches -/

section Touches

variable {s : SlabConc} {c S T : ℕ} {p q : SlabPc} {r : SlabRec}

theorem SlabConc.setSlab_comm (h : T ≠ S) (r' : SlabRec) :
    (s.setSlab S r).setSlab T r' = (s.setSlab T r').setSlab S r := by
  unfold SlabConc.setSlab
  rw [Function.update_comm h.symm]

theorem SlabConc.acquire_setSlab (h : T ≠ S) :
    (s.setSlab S r).acquire c T p = (s.acquire c T p).setSlab S r := by
  simp only [SlabConc.acquire, SlabConc.setLocked, setSlab_slab_of_ne s S r h, setSlab_comm h]
  split <;> rfl

theorem SlabConc.release_setSlab (h : T ≠ S) :
    (s.setSlab S r).release c T p = (s.release c T p).setSlab S r := by
  simp only [SlabConc.release, SlabConc.setLocked, setSlab_slab_of_ne s S r h, setSlab_comm h]
  rfl

theorem SlabConc.attempt_setSlab (h : T ≠ S) :
    (s.setSlab S r).attempt c T p q = (s.attempt c T p q).setSlab S r := by
  simp only [SlabConc.attempt, SlabConc.setLocked, setSlab_slab_of_ne s S r h, setSlab_comm h]
  split <;> rfl

theorem SlabConc.setSlab_goto_comm (t : SlabConc) (h : T ≠ S) (r' : SlabRec) :
    ((t.setSlab S r).setSlab T r').goto c p = ((t.setSlab T r').goto c p).setSlab S r := by
  rw [setSlab_comm h]
  rfl

/-- A step neither reads nor writes a slab that it does not touch. -/
theorem slabStep_setSlab (hS : (s.pc c).touches ≠ some S) (hformat : ∀ k, s.pc c ≠ .format k S)
    (r : SlabRec) :
    slabStep (s.setSlab S r) c = (slabStep s c).map fun s' => s'.setSlab S r := by
  have hslab : ∀ {T}, some T ≠ some S → (s.setSlab S r).slab T = s.slab T := fun hT =>
    SlabConc.setSlab_slab_of_ne _ _ _ fun he => hT (congrArg some he)
  -- the slabs that a place reads are the one it touches; `format` alone writes another one
  cases hp : s.pc c <;> rw [hp] at hS hformat <;>
    simp only [slabStep, SlabConc.setSlab_pc, hp] <;> simp only [SlabPc.touches] at hS
  case idle | newPage | pushNew | giveBack => rfl
  case readHead k =>
    rw [SlabConc.setSlab_head]
    cases s.head c k <;> rfl
  case lockHead | lockNext | lockNew | lockOwn =>
    rw [SlabConc.acquire_setSlab fun he => hS (congrArg some he)]
    rfl
  case unlockLast | unlockSlab | unlockTaken | unlockOwn | unlockPrev =>
    rw [SlabConc.release_setSlab fun he => hS (congrArg some he)]
    rfl
  case readCount | testNew =>
    rw [hslab hS]
    split <;> rfl
  case testAppend k T =>
    rw [hslab hS]
    cases (s.slab T).append <;> rfl
  case readAppend k T | advance k T N =>
    rw [hslab hS]
    cases (s.slab T).append <;> rfl
  case format k T =>
    have hT : T ≠ S := fun he => hformat k (he ▸ rfl)
    rw [hslab fun he => hT (Option.some.inj he)]
    exact congrArg some (SlabConc.setSlab_goto_comm { s with
      returned := Function.update s.returned T false } hT _)
  case linkNew k T =>
    rw [SlabConc.setAppend, hslab hS]
    exact congrArg some (SlabConc.setSlab_goto_comm s (fun he => hS (congrArg some he)) _)
  case takeBlock k T =>
    rw [hslab hS]
    split
    · rfl
    · cases (s.slab T).freeList with
      | nil => rfl
      | cons b rest =>
          exact congrArg some (SlabConc.setSlab_goto_comm { s with live := b :: s.live }
            (fun he => hS (congrArg some he)) _)
  case putBlock b =>
    rw [hslab hS]
    exact congrArg some (SlabConc.setSlab_goto_comm { s with live := s.live.erase b }
      (fun he => hS (congrArg some he)) _)
  case tryOwn T =>
    rw [hslab hS, SlabConc.attempt_setSlab fun he => hS (congrArg some he)]
    split <;> rfl
  case recoverHead T =>
    rw [hslab hS, SlabConc.setSlab_head, Option.map_map]
    refine congrArg (Option.map · _) (funext fun H => ?_)
    simp only [Function.comp]
    split <;> rfl
  case walk T prev =>
    rw [hslab hS]
    cases (s.slab prev).append with
    | none => rfl
    | some R =>
        simp only
        split <;> rfl
  case tryPrev =>
    rw [SlabConc.attempt_setSlab fun he => hS (congrArg some he)]
    rfl
  case readLink =>
    rw [hslab hS]
    rfl
  case unlink T prev next =>
    rw [SlabConc.setAppend, hslab hS]
    exact congrArg some (SlabConc.setSlab_goto_comm s (fun he => hS (congrArg some he)) _)

end Touches

end OsLab
