import OsLab.Dev.Sd
import OsLab.Lib.Run

/-! # Two disk operations at once

Two tasks, each in one `sd_read` or `sd_write` of the same disk. One step is one
`blk_read`, one `memcpy` between `sd->buf` and the caller's buffer, or one
`blk_write`; the local computations go with the step behind them. Nothing locks
`sd->buf`, so the other task may overwrite it between two steps, and a block may
be written in between that was already read.

`Orderly first` is what a lock would have to ensure of a step: the other task is
not in the middle of a block, and the task that is to come second does not
overtake the other one where their ranges overlap.
-/

namespace OsLab

open Copy Trace

/-- Where a task is: at the head of its loop, or before the `memcpy` or the `blk_write` of `n`
bytes. -/
inductive SdPc
  | loop
  | copy (n : ℕ)
  | store (n : ℕ)
deriving DecidableEq

/-- A task in `sd_write` (`write`) or `sd_read`; `data` is the caller's buffer. -/
structure SdTask where
  write : Bool
  offset : ℕ
  count : ℕ
  data : ℕ → UInt8
  vars : SdVars
  pc : SdPc

/-- The next step of a task; `none` when it has returned. -/
def sdStep (t : SdTask) (d : SdDev) : Option (SdTask × SdDev) :=
  match t.pc with
  | .loop =>
      if t.vars.pos < t.count then
        let n := t.vars.len d.blksz t.count
        -- `sd_write` reads the block only if it does not write all of it
        if t.write = false ∨ n < d.blksz then
          (d.blkRead (t.vars.st / d.blksz)).map fun d => ({ t with pc := .copy n }, d)
        else
          some ({ t with pc := .store n },
            d.fill t.data t.vars.pos (t.vars.offset - t.vars.st) n)
      else none
  | .copy n =>
      if t.write then
        some ({ t with pc := .store n }, d.fill t.data t.vars.pos (t.vars.offset - t.vars.st) n)
      else
        some ({ t with
          data := copyTo d.buf t.vars.pos (t.vars.offset - t.vars.st) n t.data
          vars := t.vars.next d.blksz n
          pc := .loop }, d)
  | .store n =>
      (d.blkWrite (t.vars.st / d.blksz)).map fun d =>
        ({ t with vars := t.vars.next d.blksz n, pc := .loop }, d)

/-- The disk and the two tasks. -/
structure SdSys where
  dev : SdDev
  task : Bool → SdTask

/-- A step of task `i`. -/
def sdSysStep (s : SdSys) (i : Bool) : Option SdSys :=
  (sdStep (s.task i) s.dev).map fun r => ⟨r.2, Function.update s.task i r.1⟩

/-- The task has returned. -/
def SdTask.Done (t : SdTask) : Prop := t.pc = .loop ∧ ¬ t.vars.pos < t.count

/-- Both tasks have been called, with ranges on the disk. -/
structure SdStart (s : SdSys) : Prop where
  range : ∀ i, SdRange s.dev.blkcnt s.dev.blksz (s.task i).offset (s.task i).count
  vars : ∀ i, (s.task i).vars = .init s.dev.blksz (s.task i).offset
  pc : ∀ i, (s.task i).pc = .loop

/-- Runs from `s₀`. -/
def SdRun (s₀ : SdSys) : List (SdSys × Bool) → SdSys → Prop :=
  Run (fun s => s = s₀) fun s i s' => sdSysStep s i = some s'

/-- The operation of the task on its own, with rounds enough: the caller's buffer and the disk
afterwards. -/
def SdTask.run (t : SdTask) (d : SdDev) : Option ((ℕ → UInt8) × SdDev) :=
  if t.write then (sdWrite (t.count + 1) t.offset t.count t.data d).map fun r => (t.data, r.2)
  else (sdRead (t.count + 1) t.offset t.count t.data d).map Prod.snd

/-- The disk and the buffers in `s` are those of running the two operations of `s₀` one after the
other. -/
def SdSerial (s₀ s : SdSys) (first : Bool) : Prop :=
  ∃ b₁ d₁ b₂ d₂, (s₀.task first).run s₀.dev = some (b₁, d₁) ∧
    (s₀.task !first).run d₁ = some (b₂, d₂) ∧
    s.dev.disk = d₂.disk ∧ (s.task first).data = b₁ ∧ (s.task !first).data = b₂

/-- When both tasks have returned, the outcome is that of one of the two orders. -/
def SdSerialisable (s₀ s : SdSys) : Prop :=
  (∀ i, (s.task i).Done) → ∃ first, SdSerial s₀ s first

/-- The bytes that `t` transfers next are not among those that `u` has yet to transfer. -/
def SdTask.Behind (t u : SdTask) (blksz : ℕ) : Prop :=
  t.vars.offset + t.vars.len blksz t.count ≤ u.offset + u.vars.pos ∨
    u.offset + u.count ≤ t.vars.offset ∨ u.count ≤ u.vars.pos

instance (t u : SdTask) (blksz : ℕ) : Decidable (t.Behind u blksz) :=
  inferInstanceAs (Decidable (_ ∨ _ ∨ _))

/-- At this step the other task is not in the middle of a block, and the second task does not
overtake the first where one of them writes. -/
def Orderly (first : Bool) (s : SdSys) (i : Bool) : Prop :=
  (s.task !i).pc = .loop ∧
    (i = !first → (s.task i).pc = .loop →
      ((s.task i).write = false ∧ (s.task first).write = false) ∨
        (s.task i).Behind (s.task first) s.dev.blksz)

instance (first : Bool) (s : SdSys) (i : Bool) : Decidable (Orderly first s i) :=
  inferInstanceAs (Decidable (_ ∧ _))

/-! ## The invariant -/

/-- The disk once `t` has written `n` bytes. -/
def SdTask.wrote (t : SdTask) (n : ℕ) (disk : ℕ → UInt8) : ℕ → UInt8 :=
  if t.write then copyTo t.data t.offset 0 n disk else disk

/-- How far the bytes reach that `t` has dealt with or is dealing with. -/
def SdTask.upTo (t : SdTask) : ℕ :=
  match t.pc with
  | .loop => t.vars.pos
  | .copy n | .store n => t.vars.pos + n

theorem SdTask.wrote_of_read {t : SdTask} (h : t.write = false) (n : ℕ) (disk : ℕ → UInt8) :
    t.wrote n disk = disk := by
  simp [SdTask.wrote, h]

theorem SdTask.wrote_zero (t : SdTask) (disk : ℕ → UInt8) : t.wrote 0 disk = disk := by
  unfold SdTask.wrote
  split <;> rfl

theorem SdTask.wrote_add {t : SdTask} (h : t.write = true) (m n : ℕ) (disk : ℕ → UInt8) :
    t.wrote (m + n) disk = copyTo t.data (t.offset + m) m n (t.wrote m disk) := by
  have hadd := copyTo_add t.data t.offset 0 m n disk
  rw [Nat.zero_add] at hadd
  simp only [SdTask.wrote, if_pos h]
  exact hadd.symm

theorem SdTask.wrote_congr {t u : SdTask} (hw : t.write = u.write) (ho : t.offset = u.offset)
    (hd : u.write = true → t.data = u.data) : t.wrote = u.wrote := by
  funext n disk
  unfold SdTask.wrote
  rw [hw, ho]
  split
  · rename_i h
    rw [hd h]
  · rfl

theorem SdTask.pos_le_upTo (t : SdTask) : t.vars.pos ≤ t.upTo := by
  unfold SdTask.upTo
  split <;> omega

/-- The disk that the operation of task `i` is about: the other operation comes after it or has been
run before it. -/
def SdSys.base (s₀ s : SdSys) (first i : Bool) : ℕ → UInt8 :=
  if i = first then s₀.dev.disk else (s.task first).wrote (s.task first).count s₀.dev.disk

/-- What `sd->buf` holds for a task in the middle of a block. -/
def Transfer (t : SdTask) (d : SdDev) : Prop :=
  match t.pc with
  | .loop => True
  | .copy n =>
      t.vars.pos < t.count ∧ n = t.vars.len d.blksz t.count ∧
        ∀ k < d.blksz, d.buf k = d.disk (t.vars.st + k)
  | .store n =>
      t.vars.pos < t.count ∧ n = t.vars.len d.blksz t.count ∧ t.write = true ∧
        d.blkWrite (t.vars.st / d.blksz) = some { d with
          disk := copyTo t.data t.vars.offset t.vars.pos n d.disk }

/-- The invariant of the orderly runs from `s₀` in which task `first` comes first. -/
structure SdInv (first : Bool) (s₀ s : SdSys) : Prop where
  blkcnt : s.dev.blkcnt = s₀.dev.blkcnt
  blksz : s.dev.blksz = s₀.dev.blksz
  write : ∀ i, (s.task i).write = (s₀.task i).write
  offset : ∀ i, (s.task i).offset = (s₀.task i).offset
  count : ∀ i, (s.task i).count = (s₀.task i).count
  data : ∀ i, (s.task i).write = true → (s.task i).data = (s₀.task i).data
  range : ∀ i, SdRange s.dev.blkcnt s.dev.blksz (s.task i).offset (s.task i).count
  vars : ∀ i, (s.task i).vars.At s.dev.blksz (s.task i).offset (s.task i).count
  transfer : ∀ i, Transfer (s.task i) s.dev
  alone : ∀ i, (s.task i).pc ≠ .loop → (s.task !i).pc = .loop
  disk : s.dev.disk = (s.task !first).wrote (s.task !first).vars.pos
    ((s.task first).wrote (s.task first).vars.pos s₀.dev.disk)
  behind : (s.task first).write = true ∨ (s.task !first).write = true →
    ∀ a, (s.task !first).offset ≤ a → a < (s.task !first).offset + (s.task !first).upTo →
      (s.task first).offset + (s.task first).vars.pos ≤ a →
        (s.task first).offset + (s.task first).count ≤ a
  read : ∀ i, (s.task i).write = false → (s.task i).data =
    copyTo (s₀.base s first i) 0 (s.task i).offset (s.task i).vars.pos (s₀.task i).data

theorem SdStart.inv {s : SdSys} (hs : SdStart s) (first : Bool) : SdInv first s s := by
  have hpos : ∀ i, (s.task i).vars.pos = 0 := fun i => by
    rw [hs.vars i]
    rfl
  refine ⟨rfl, rfl, fun _ => rfl, fun _ => rfl, fun _ => rfl, fun _ _ => rfl, hs.range, ?_, ?_, ?_,
    ?_, ?_, ?_⟩
  · intro i
    rw [hs.vars i]
    exact SdVars.at_init (hs.range i)
  · intro i
    unfold Transfer
    rw [hs.pc i]
    trivial
  · exact fun i h => absurd (hs.pc i) h
  · rw [hpos, hpos, SdTask.wrote_zero, SdTask.wrote_zero]
  · intro _ a h1 h2
    simp only [SdTask.upTo, hs.pc, hpos] at h2
    omega
  · intro i _
    rw [hpos]
    rfl

/-! ## Steps -/

section Steps

variable {first i : Bool} {s₀ s : SdSys} {n : ℕ}

theorem eq_not_of_ne {i j : Bool} (h : j ≠ i) : j = !i := by
  cases i <;> cases j <;> simp_all

/-- A field that a step of task `i` leaves as it was. -/
theorem field_update {task : Bool → SdTask} {t : SdTask} {β : Type} (f : SdTask → β)
    (hf : f t = f (task i)) (j : Bool) : f (Function.update task i t j) = f (task j) := by
  by_cases hj : j = i
  · subst hj
    rw [Function.update_self, hf]
  · rw [Function.update_of_ne hj]

theorem pos_update {task : Bool → SdTask} {t : SdTask}
    (hadd : t.vars.pos = (task i).vars.pos + n) (j : Bool) :
    (Function.update task i t j).vars.pos = (task j).vars.pos + if j = i then n else 0 := by
  by_cases hj : j = i
  · subst hj
    rw [Function.update_self, if_pos rfl, hadd]
  · rw [Function.update_of_ne hj, if_neg hj, Nat.add_zero]

/-- A step of task `i` in the middle of a block: only `sd->buf` changes, and where `i` is. -/
theorem SdInv.proceed (h : SdInv first s₀ s) {p : SdPc} {b : ℕ → UInt8}
    (hother : (s.task !i).pc = .loop)
    (htransfer : Transfer { s.task i with pc := p } { s.dev with buf := b })
    (hbehind : i = !first → (s.task first).write = true ∨ (s.task i).write = true →
      ∀ a, (s.task i).offset ≤ a → a < (s.task i).offset + { s.task i with pc := p }.upTo →
        (s.task first).offset + (s.task first).vars.pos ≤ a →
          (s.task first).offset + (s.task first).count ≤ a) :
    SdInv first s₀ ⟨{ s.dev with buf := b },
      Function.update s.task i { s.task i with pc := p }⟩ := by
  -- all fields of the tasks but `pc` are as they were
  have hkeep : ∀ {β : Type} (f : SdTask → β), f { s.task i with pc := p } = f (s.task i) → ∀ j,
      f (Function.update s.task i { s.task i with pc := p } j) = f (s.task j) := field_update
  have hwrite := hkeep SdTask.write rfl
  have hoffset := hkeep SdTask.offset rfl
  have hcount := hkeep SdTask.count rfl
  have hdata := hkeep SdTask.data rfl
  have hvars := hkeep SdTask.vars rfl
  have hwrote := hkeep SdTask.wrote rfl
  constructor
  · exact h.blkcnt
  · exact h.blksz
  · exact fun j => (hwrite j).trans (h.write j)
  · exact fun j => (hoffset j).trans (h.offset j)
  · exact fun j => (hcount j).trans (h.count j)
  · simp only [hwrite, hdata]
    exact h.data
  · simp only [hoffset, hcount]
    exact h.range
  · simp only [hvars, hoffset, hcount]
    exact h.vars
  · intro j
    simp only
    by_cases hj : j = i
    · subst hj
      rwa [Function.update_self]
    · rw [Function.update_of_ne hj, eq_not_of_ne hj]
      unfold Transfer
      rw [hother]
      trivial
  · intro j hp
    simp only at hp ⊢
    by_cases hj : j = i
    · subst hj
      rwa [Function.update_of_ne (by cases j <;> simp)]
    · rw [Function.update_of_ne hj, eq_not_of_ne hj] at hp
      exact absurd hother hp
  · simp only [hwrote, hvars]
    exact h.disk
  · simp only [hwrite, hoffset, hcount, hvars]
    by_cases hi : (!first) = i
    · subst hi
      rw [Function.update_self]
      exact hbehind rfl
    · rw [Function.update_of_ne hi]
      exact h.behind
  · unfold SdSys.base
    simp only [hwrite, hdata, hvars, hoffset, hcount, hwrote]
    exact h.read

/-- Task `i` is done with a block: `n` bytes more have reached the buffer or the disk. -/
theorem SdInv.finish (h : SdInv first s₀ s) {data : ℕ → UInt8} (disk : ℕ → UInt8)
    (hpos : (s.task i).vars.pos < (s.task i).count)
    (hn : n = (s.task i).vars.len s.dev.blksz (s.task i).count)
    (hup : (s.task i).upTo = (s.task i).vars.pos + n) (hother : (s.task !i).pc = .loop)
    (hdata : (s.task i).write = true → data = (s.task i).data)
    (hread : (s.task i).write = false → data = copyTo (s₀.base s first i) 0 (s.task i).offset
      ((s.task i).vars.pos + n) (s₀.task i).data)
    (hdisk : disk =
      (s.task !first).wrote ((s.task !first).vars.pos + if (!first) = i then n else 0)
        ((s.task first).wrote ((s.task first).vars.pos + if first = i then n else 0)
          s₀.dev.disk)) :
    SdInv first s₀ ⟨{ s.dev with disk := disk }, Function.update s.task i { s.task i with
      data := data, vars := (s.task i).vars.next s.dev.blksz n, pc := .loop }⟩ := by
  rcases (h.vars i).round (h.range i) hpos with ⟨hround, hnext⟩
  rw [← hn] at hround hnext
  have hadd := hround.next_pos (h.range i)
  have hloop : ∀ j, (Function.update s.task i { s.task i with
      data := data, vars := (s.task i).vars.next s.dev.blksz n, pc := .loop } j).pc = .loop := by
    intro j
    by_cases hj : j = i
    · subst hj
      rw [Function.update_self]
    · rw [Function.update_of_ne hj, eq_not_of_ne hj]
      exact hother
  have hkeep : ∀ {β : Type} (f : SdTask → β),
      f { s.task i with data := data, vars := (s.task i).vars.next s.dev.blksz n, pc := .loop } =
        f (s.task i) → ∀ j, f (Function.update s.task i { s.task i with
          data := data, vars := (s.task i).vars.next s.dev.blksz n, pc := .loop } j) =
            f (s.task j) := field_update
  have hwrite := hkeep SdTask.write rfl
  have hoffset := hkeep SdTask.offset rfl
  have hcount := hkeep SdTask.count rfl
  have hwrote := hkeep SdTask.wrote (SdTask.wrote_congr rfl rfl hdata)
  have hupTo := hkeep SdTask.upTo (hadd.trans hup.symm)
  have hvpos : ∀ j, (Function.update s.task i { s.task i with
      data := data, vars := (s.task i).vars.next s.dev.blksz n, pc := .loop } j).vars.pos =
        (s.task j).vars.pos + if j = i then n else 0 := pos_update hadd
  constructor
  · exact h.blkcnt
  · exact h.blksz
  · exact fun j => (hwrite j).trans (h.write j)
  · exact fun j => (hoffset j).trans (h.offset j)
  · exact fun j => (hcount j).trans (h.count j)
  · intro j
    simp only [hwrite]
    intro hw
    by_cases hj : j = i
    · subst hj
      rw [Function.update_self]
      exact (hdata hw).trans (h.data j hw)
    · rw [Function.update_of_ne hj]
      exact h.data j hw
  · simp only [hoffset, hcount]
    exact h.range
  · intro j
    simp only [hoffset, hcount]
    by_cases hj : j = i
    · subst hj
      rw [Function.update_self]
      exact hnext
    · rw [Function.update_of_ne hj]
      exact h.vars j
  · intro j
    unfold Transfer
    simp only [hloop]
  · exact fun j _ => hloop _
  · simp only [hwrote, hvpos]
    exact hdisk
  · -- what `first` has yet to deal with gets less, and the other one gets no further
    simp only [hwrite, hoffset, hcount, hvpos, hupTo]
    intro hw a h1 h2 h3
    exact h.behind hw a h1 h2 (by omega)
  · intro j
    unfold SdSys.base
    simp only [hwrite, hwrote, hoffset, hcount, hvpos]
    intro hw
    by_cases hj : j = i
    · subst hj
      rw [Function.update_self, if_pos rfl]
      exact hread hw
    · rw [Function.update_of_ne hj, if_neg hj, Nat.add_zero]
      exact h.read j hw

/-- A task that reads sees the disk that its operation is about. -/
theorem SdInv.seen (h : SdInv first s₀ s) (hw : (s.task i).write = false) {a : ℕ}
    (h1 : (s.task i).offset + (s.task i).vars.pos ≤ a)
    (h2 : a < (s.task i).offset + (s.task i).upTo) (h3 : a < (s.task i).offset + (s.task i).count) :
    s.dev.disk a = s₀.base s first i a := by
  rw [h.disk]
  unfold SdSys.base
  by_cases hi : i = first
  · -- the second task has written nothing that the first has yet to read
    subst hi
    rw [if_pos rfl, SdTask.wrote_of_read hw, SdTask.wrote]
    split
    · rename_i hw'
      rw [copyTo_apply]
      split
      · rename_i hin
        have hle := (s.task !i).pos_le_upTo
        have hbeh := h.behind (Or.inr hw') a hin.1 (by omega) h1
        omega
      · rfl
    · rfl
  · -- the first has written all that the second reads
    rw [if_neg hi]
    rw [eq_not_of_ne hi] at hw h1 h2 h3
    rw [SdTask.wrote_of_read hw]
    unfold SdTask.wrote
    split
    · rename_i hw'
      have hle := (h.vars first).le
      rw [copyTo_apply, copyTo_apply]
      by_cases hin : (s.task first).offset ≤ a ∧ a < (s.task first).offset + (s.task first).count
      · have hdone : a < (s.task first).offset + (s.task first).vars.pos := by
          by_contra hcon
          have hbeh := h.behind (Or.inl hw') a (by omega) h2 (by omega)
          omega
        rw [if_pos (by omega), if_pos hin]
      · rw [if_neg (by omega), if_neg hin]
    · rfl

/-- The step at the head of the loop: `n` bytes more are being dealt with. -/
theorem SdInv.begin (h : SdInv first s₀ s) (hC : Orderly first s i) (hloop : (s.task i).pc = .loop)
    {p : SdPc} {b : ℕ → UInt8}
    (hp : { s.task i with pc := p }.upTo =
      (s.task i).vars.pos + (s.task i).vars.len s.dev.blksz (s.task i).count)
    (hpos : (s.task i).vars.pos < (s.task i).count)
    (htransfer : Transfer { s.task i with pc := p } { s.dev with buf := b }) :
    SdInv first s₀ ⟨{ s.dev with buf := b },
      Function.update s.task i { s.task i with pc := p }⟩ := by
  refine h.proceed hC.1 htransfer ?_
  rintro rfl hw a h1 h2 h3
  rw [hp] at h2
  by_cases hold : a < (s.task !first).offset + (s.task !first).vars.pos
  · refine h.behind hw a h1 ?_ h3
    rw [SdTask.upTo, hloop]
    exact hold
  · have hoff := (h.vars !first).offset_eq hpos
    rcases hC.2 rfl hloop with ⟨hr, hr'⟩ | hbeh
    · rw [hr, hr'] at hw
      simp at hw
    · unfold SdTask.Behind at hbeh
      omega

/-- A round of a read leaves the disk as it is. -/
theorem SdInv.disk_of_read (h : SdInv first s₀ s) (hw : (s.task i).write = false) (n : ℕ) :
    s.dev.disk =
      (s.task !first).wrote ((s.task !first).vars.pos + if (!first) = i then n else 0)
        ((s.task first).wrote ((s.task first).vars.pos + if first = i then n else 0)
          s₀.dev.disk) := by
  rw [h.disk]
  by_cases hi : i = first
  · subst hi
    rw [if_neg (Bool.not_eq_self i).1, SdTask.wrote_of_read hw, SdTask.wrote_of_read hw,
      Nat.add_zero]
  · obtain rfl := eq_not_of_ne hi
    rw [SdTask.wrote_of_read hw, SdTask.wrote_of_read hw, if_neg (Bool.eq_not_self first).1,
      Nat.add_zero]

/-- The `blk_write` of a round puts its bytes where the order of the two operations has them. -/
theorem SdInv.disk_of_write (h : SdInv first s₀ s) (hw : (s.task i).write = true)
    (hpos : (s.task i).vars.pos < (s.task i).count)
    (hle : (s.task i).vars.pos + n ≤ (s.task i).count) :
    copyTo (s.task i).data (s.task i).vars.offset (s.task i).vars.pos n s.dev.disk =
      (s.task !first).wrote ((s.task !first).vars.pos + if (!first) = i then n else 0)
        ((s.task first).wrote ((s.task first).vars.pos + if first = i then n else 0)
          s₀.dev.disk) := by
  rw [h.disk, (h.vars i).offset_eq hpos]
  by_cases hi : i = first
  · -- the second task has written nothing of what the first writes now
    subst hi
    have hcomm : ∀ disk, copyTo (s.task i).data ((s.task i).offset + (s.task i).vars.pos)
        (s.task i).vars.pos n ((s.task !i).wrote (s.task !i).vars.pos disk) =
          (s.task !i).wrote (s.task !i).vars.pos
            (copyTo (s.task i).data ((s.task i).offset + (s.task i).vars.pos)
              (s.task i).vars.pos n disk) := by
      intro disk
      unfold SdTask.wrote
      split
      · refine copyTo_comm fun a h1 h2 h3 => ?_
        by_contra hcon
        have hreach := (s.task !i).pos_le_upTo
        have hbeh := h.behind (Or.inl hw) a h3 (by omega) (by omega)
        omega
      · rfl
    rw [if_neg (Bool.not_eq_self i).1, if_pos rfl, Nat.add_zero, hcomm, SdTask.wrote_add hw]
  · obtain rfl := eq_not_of_ne hi
    rw [if_pos rfl, if_neg (Bool.eq_not_self first).1, Nat.add_zero, SdTask.wrote_add hw]

theorem SdInv.step (h : SdInv first s₀ s) (hC : Orderly first s i) {s' : SdSys}
    (hst : sdSysStep s i = some s') : SdInv first s₀ s' := by
  unfold sdSysStep at hst
  rcases Option.map_eq_some_iff.1 hst with ⟨⟨t, d⟩, ht, rfl⟩
  have htransfer := h.transfer i
  unfold sdStep at ht
  unfold Transfer at htransfer
  split at ht
  · rename_i hpc
    split at ht
    · rename_i hpos
      rcases (h.vars i).round (h.range i) hpos with ⟨hround, -⟩
      rcases hround.blkRead with ⟨b, hread, hb⟩
      simp only at ht
      split at ht
      · -- `blk_read`
        rw [hread] at ht
        rcases Prod.mk.inj (Option.some.inj ht) with ⟨rfl, rfl⟩
        exact h.begin hC hpc rfl hpos ⟨hpos, rfl, hb⟩
      · -- `memcpy` of a whole block
        rename_i hfull
        rcases Prod.mk.inj (Option.some.inj ht) with ⟨rfl, rfl⟩
        have hw : (s.task i).write = true := by
          rcases hw : (s.task i).write with _ | _
          · exact absurd (Or.inl hw) hfull
          · rfl
        exact h.begin hC hpc rfl hpos
          ⟨hpos, rfl, hw, hround.store fun _ _ hlt => absurd (Or.inr hlt) hfull⟩
    · cases ht
  · rename_i n hpc
    simp only [hpc] at htransfer
    rcases htransfer with ⟨hpos, rfl, hbuf⟩
    rcases (h.vars i).round (h.range i) hpos with ⟨hround, -⟩
    have hup : (s.task i).upTo =
        (s.task i).vars.pos + (s.task i).vars.len s.dev.blksz (s.task i).count := by
      rw [SdTask.upTo, hpc]
    split at ht
    · -- `memcpy` into the block that was read
      rename_i hw
      rcases Prod.mk.inj (Option.some.inj ht) with ⟨rfl, rfl⟩
      refine h.proceed hC.1 ⟨hpos, rfl, hw, hround.store fun k hk _ => hbuf k hk⟩ ?_
      rintro rfl hw' a h1 h2
      refine h.behind hw' a h1 ?_
      rw [hup]
      exact h2
    · -- `memcpy` out of the block that was read
      rename_i hw
      have hw' : (s.task i).write = false := Bool.eq_false_iff.2 hw
      rcases Prod.mk.inj (Option.some.inj ht) with ⟨rfl, rfl⟩
      refine h.finish s.dev.disk hpos rfl hup hC.1 (fun he => absurd he hw) (fun _ => ?_)
        (h.disk_of_read hw' _)
      have hoff := hround.offset_eq
      have hle := hround.le
      rw [hround.copyOut hbuf, h.read i hw', ← copyTo_add, Nat.zero_add, ← hoff]
      exact copyTo_congr fun a h1 h2 => h.seen hw' (by omega) (by omega) (by omega)
  · -- `blk_write`
    rename_i n hpc
    simp only [hpc] at htransfer
    rcases htransfer with ⟨hpos, rfl, hw, hstore⟩
    rcases (h.vars i).round (h.range i) hpos with ⟨hround, -⟩
    have hup : (s.task i).upTo =
        (s.task i).vars.pos + (s.task i).vars.len s.dev.blksz (s.task i).count := by
      rw [SdTask.upTo, hpc]
    rw [hstore] at ht
    rcases Prod.mk.inj (Option.some.inj ht) with ⟨rfl, rfl⟩
    exact h.finish _ hpos rfl hup hC.1 (fun _ => rfl) (fun he => by rw [he] at hw; cases hw)
      (h.disk_of_write hw hpos hround.le)

end Steps

/-! ## Runs -/

/-- An operation on its own writes its bytes, or fills the caller's buffer. -/
theorem SdTask.run_eq {t : SdTask} {d : SdDev} (hr : SdRange d.blkcnt d.blksz t.offset t.count) :
    ∃ b, t.run d = some (if t.write then t.data else copyTo d.disk 0 t.offset t.count t.data,
      { d with buf := b, disk := t.wrote t.count d.disk }) := by
  have hinit := SdVars.at_init hr
  unfold SdTask.run SdTask.wrote
  split
  · rcases sdWriteLoop_eq hr t.data d.disk (t.count + 1) hinit (Nat.lt_succ_self _) rfl with ⟨b, hb⟩
    refine ⟨b, ?_⟩
    rw [sdWrite, hb]
    rfl
  · rcases sdReadLoop_eq hr t.data (t.count + 1) hinit (Nat.lt_succ_self _) with ⟨b, hb⟩
    refine ⟨b, ?_⟩
    rw [sdRead]
    exact (congrArg (Option.map Prod.snd) hb).trans rfl

theorem SdInv.serial {first : Bool} {s₀ s : SdSys} (h : SdInv first s₀ s) (h₀ : SdStart s₀)
    (hdone : ∀ i, (s.task i).Done) : SdSerial s₀ s first := by
  have hall : ∀ i, (s.task i).vars.pos = (s.task i).count := fun i => by
    have hle := (h.vars i).le
    have hd := (hdone i).2
    omega
  have hwrote : ∀ i, (s.task i).wrote = (s₀.task i).wrote := fun i =>
    SdTask.wrote_congr (h.write i) (h.offset i) fun hw => h.data i ((h.write i).trans hw)
  -- both operations, one after the other
  rcases SdTask.run_eq (h₀.range first) with ⟨b, hrun⟩
  obtain ⟨b', hrun'⟩ := SdTask.run_eq (d := { s₀.dev with
    buf := b, disk := (s₀.task first).wrote (s₀.task first).count s₀.dev.disk })
    (h₀.range !first)
  refine ⟨_, _, _, _, hrun, hrun', ?_, ?_, ?_⟩
  · rw [h.disk, hall, hall, hwrote, hwrote, h.count, h.count]
  · split
    · rename_i hw
      exact h.data first ((h.write first).trans hw)
    · rename_i hw
      have hread := h.read first ((h.write first).trans (Bool.eq_false_iff.2 hw))
      rw [SdSys.base, if_pos rfl, hall, h.offset, h.count] at hread
      exact hread
  · split
    · rename_i hw
      exact h.data (!first) ((h.write _).trans hw)
    · rename_i hw
      have hread := h.read (!first) ((h.write _).trans (Bool.eq_false_iff.2 hw))
      rw [SdSys.base, if_neg (Bool.not_eq_self first).1, hall, h.offset, h.count, hwrote,
        h.count] at hread
      exact hread

/-- **Two disk operations are serialisable** when all steps are orderly: no step of the other task
falls into the transfer of a block, and the second task does not overtake the first. -/
theorem sdSerialisable_of_run {s₀ s : SdSys} {h : List (SdSys × Bool)} (h₀ : SdStart s₀)
    (hr : SdRun s₀ h s) (hC : ∃ first, AllSteps (Orderly first) h) : SdSerialisable s₀ s := by
  rcases hC with ⟨first, hC⟩
  intro hdone
  refine ⟨first, SdInv.serial ?_ h₀ hdone⟩
  refine (Run.invariant_of_allSteps (I := SdInv first s₀) ?_ ?_ hr hC).2
  · rintro s rfl
    exact h₀.inv first
  · exact fun s i s' hinv hc hst => hinv.step hc hst

/-- A disk of two blocks of two bytes; one task writes the first three bytes, one the last. -/
def twoWriters : SdSys where
  dev := ⟨2, 2, fun _ => 0, fun _ => 0⟩
  task i := if i then ⟨true, 3, 1, fun _ => 2, .init 2 3, .loop⟩
    else ⟨true, 0, 3, fun _ => 1, .init 2 0, .loop⟩

theorem sdStart_twoWriters : SdStart twoWriters := by
  constructor
  · rintro (_ | _)
    · exact ⟨⟨1, rfl⟩, by decide, by decide⟩
    · exact ⟨⟨1, rfl⟩, by decide, by decide⟩
  · rintro (_ | _) <;> rfl
  · rintro (_ | _) <;> rfl

instance (t : SdTask) : Decidable t.Done := inferInstanceAs (Decidable (_ ∧ _))

/-- The second task writes its byte between the two blocks of the first. -/
theorem sdSerialisable_betweenBlocks : ∃ h s, SdRun twoWriters h s ∧ (∀ i, (s.task i).Done) ∧
    SdSerialisable twoWriters s := by
  have hex : ([false, false, true, true, true, false, false, false].foldlM
      (fun s i => if Orderly false s i then sdSysStep s i else none) twoWriters).any
      (fun s => decide (∀ i, (s.task i).Done)) = true := by decide +kernel
  rcases (Option.any_eq_true _ _).1 hex with ⟨s, hs, hdone⟩
  obtain ⟨h, hr, hC⟩ := Run.exists_of_foldlM
    (show SdRun twoWriters [] twoWriters from .start rfl) allSteps_nil hs
  exact ⟨h, s, hr, of_decide_eq_true hdone,
    sdSerialisable_of_run sdStart_twoWriters hr ⟨false, hC⟩⟩

/-- The first task has copied its byte into the block when the second reads the block again: the
byte is lost. -/
theorem not_sdSerialisable :
    ¬ ∀ s₀ h s, SdStart s₀ → SdRun s₀ h s → SdSerialisable s₀ s := by
  intro hall
  have hex : ([false, false, false, false, true, false, true, true].foldlM
      (fun s i => if True then sdSysStep s i else none) twoWriters).any
      (fun s => decide ((∀ i, (s.task i).Done) ∧ s.dev.disk 2 = 0)) = true := by decide +kernel
  rcases (Option.any_eq_true _ _).1 hex with ⟨s, hs, hbad⟩
  rcases of_decide_eq_true hbad with ⟨hdone, hlost⟩
  obtain ⟨h, hr, -⟩ := Run.exists_of_foldlM (C := fun _ _ => True)
    (show SdRun twoWriters [] twoWriters from .start rfl) allSteps_nil hs
  obtain ⟨first, b₁, d₁, b₂, d₂, hrun, hrun', hdisk, -⟩ :=
    hall twoWriters h s sdStart_twoWriters hr hdone
  -- in either order the byte is 1
  have hboth : ∀ first, ((twoWriters.task first).run twoWriters.dev).all (fun r =>
      ((twoWriters.task !first).run r.2).all fun r => r.2.disk 2 == 1) = true := by
    decide +kernel
  have hkept := hboth first
  rw [hrun, Option.all_some, hrun', Option.all_some, beq_iff_eq, ← hdisk, hlost] at hkept
  exact absurd hkept (by decide)

end OsLab
