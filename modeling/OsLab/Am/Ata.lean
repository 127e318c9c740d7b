import OsLab.Dev.Sd
import Mathlib.Data.Nat.Bitwise

/-! # The disk drive (`disk_blkio` of `ioe.c`)

The drive is reached through its ports: the number of a sector goes into four registers, a command
into a fifth, and then the bytes of the sector pass through the data port, four at a time. While
the drive is busy, which may take any time after each command and each sector, it ignores
what is written to its registers. `disk_blkio` waits for it and moves whole blocks. The
drive is taken to have all the sectors that 28 bits can number.
-/

namespace OsLab.Ata

open Copy

def BLKSZ : ℕ := 512

/-- A word of 32 bits, by its bytes, the lowest first. -/
structure Dword where
  b0 : UInt8
  b1 : UInt8
  b2 : UInt8
  b3 : UInt8

def loadDword (mem : ℕ → UInt8) (a : ℕ) : Dword := ⟨mem a, mem (a + 1), mem (a + 2), mem (a + 3)⟩

def storeDword (a : ℕ) (w : Dword) (mem : ℕ → UInt8) : ℕ → UInt8 :=
  Function.update (Function.update (Function.update (Function.update mem a w.b0) (a + 1) w.b1)
    (a + 2) w.b2) (a + 3) w.b3

theorem storeDword_loadDword (m mem : ℕ → UInt8) (dst src : ℕ) :
    storeDword dst (loadDword m src) mem = copyTo m dst src 4 mem := rfl

/-! ## The drive -/

/-- The registers of the drive, the command that it executes (`some true` for a write), the time for
which it is busy still and after each later command or sector, and what is on the disk. -/
structure Drive where
  count : UInt8
  low : UInt8
  mid : UInt8
  high : UInt8
  drive : UInt8
  command : Option Bool
  lba : ℕ
  pos : ℕ
  size : ℕ
  busy : ℕ
  delay : ℕ → ℕ
  time : ℕ
  disk : ℕ → UInt8

namespace Drive

/-- The drive is busy for some time. -/
def work (d : Drive) : Drive := { d with busy := d.delay d.time, time := d.time + 1 }

/-- A command is written: read or write sectors. -/
def issue (val : UInt8) (d : Drive) : Drive :=
  if val = 0x20 ∨ val = 0x30 then
    { d.work with
      command := some (val = 0x30)
      lba := d.low.toNat + d.mid.toNat * 2 ^ 8 + d.high.toNat * 2 ^ 16 +
        d.drive.toNat % 2 ^ 4 * 2 ^ 24
      pos := 0
      size := BLKSZ * if d.count = 0 then 256 else d.count.toNat }
  else { d with command := none }

/-- `outb`. -/
def outb (port : ℕ) (val : UInt8) (d : Drive) : Drive :=
  if d.busy > 0 then d
  else
    match port with
    | 0x1f2 => { d with count := val }
    | 0x1f3 => { d with low := val }
    | 0x1f4 => { d with mid := val }
    | 0x1f5 => { d with high := val }
    | 0x1f6 => { d with drive := val }
    | 0x1f7 => d.issue val
    | _ => d

/-- `inb(0x1f7)`: the status. -/
def status (d : Drive) : UInt8 × Drive :=
  if d.busy > 0 then (0x80, { d with busy := d.busy - 1 })
  else (if d.command.isSome then 0x48 else 0x40, d)

/-- Four bytes more have passed. -/
def advance (d : Drive) : Drive :=
  let d := { d with
    pos := d.pos + 4
    command := if d.pos + 4 = d.size then none else d.command }
  if d.pos % BLKSZ = 0 then d.work else d

/-- `inl(0x1f0)`. -/
def inl (d : Drive) : Dword × Drive :=
  if d.busy = 0 ∧ d.command = some false then
    (loadDword d.disk (BLKSZ * d.lba + d.pos), d.advance)
  else (⟨0, 0, 0, 0⟩, d)

/-- `outl(0x1f0, w)`. -/
def outl (w : Dword) (d : Drive) : Drive :=
  if d.busy = 0 ∧ d.command = some true then
    { d with disk := storeDword (BLKSZ * d.lba + d.pos) w d.disk }.advance
  else d

end Drive

/-! ## The driver -/

theorem Drive.status_busy {d : Drive} (h : d.status.1 &&& 0xc0 ≠ 0x40) :
    d.status.2.busy < d.busy := by
  unfold Drive.status at h ⊢
  by_cases hb : d.busy > 0
  · rw [if_pos hb]
    exact Nat.sub_lt hb Nat.one_pos
  · rw [if_neg hb] at h
    simp only at h
    exfalso
    revert h
    cases d.command.isSome <;> decide

/-- `wait_disk`. -/
def waitDisk (d : Drive) : Drive :=
  if d.status.1 &&& 0xc0 ≠ 0x40 then waitDisk d.status.2 else d.status.2
termination_by d.busy
decreasing_by exact Drive.status_busy ‹_›

/-- The first part of a round of `disk_blkio`, and of `read_disk`. -/
def startBlock (blkno : ℕ) (cmd : UInt8) (d : Drive) : Drive :=
  let d := waitDisk d
  let d := d.outb 0x1f2 1
  let d := d.outb 0x1f3 blkno.toUInt8
  let d := d.outb 0x1f4 (blkno >>> 8).toUInt8
  let d := d.outb 0x1f5 (blkno >>> 16).toUInt8
  let d := d.outb 0x1f6 ((blkno >>> 24) ||| 0xe0).toUInt8
  let d := d.outb 0x1f7 cmd
  waitDisk d

/-- The first `n` rounds of `*ptr++ = inl(0x1f0)`. -/
def insl (ptr : ℕ) : ℕ → (ℕ → UInt8) × Drive → (ℕ → UInt8) × Drive
  | 0, s => s
  | n + 1, s =>
      let s := insl ptr n s
      (storeDword (ptr + 4 * n) s.2.inl.1 s.1, s.2.inl.2)

/-- The first `n` rounds of `outl(0x1f0, *ptr++)`. -/
def outsl (mem : ℕ → UInt8) (ptr : ℕ) : ℕ → Drive → Drive
  | 0, d => d
  | n + 1, d => (outsl mem ptr n d).outl (loadDword mem (ptr + 4 * n))

/-- The loop of `disk_blkio`. Of `blkno` the drive sees 28 bits. -/
def blkioLoop (write : Bool) : ℕ → ℕ → ℕ → (ℕ → UInt8) × Drive → (ℕ → UInt8) × Drive
  | 0, _, _, s => s
  | remain + 1, blkno, ptr, s =>
      let d := startBlock blkno (if write then 0x30 else 0x20) s.2
      let s := if write then (s.1, outsl s.1 ptr (BLKSZ / 4) d) else insl ptr (BLKSZ / 4) (s.1, d)
      blkioLoop write remain (blkno + 1) (ptr + BLKSZ) s

/-- `AM_DISK_BLKIO_T`. -/
structure BlkReq where
  write : Bool
  buf : ℕ
  blkno : ℕ
  blkcnt : ℕ

/-- `disk_blkio`. -/
def diskBlkio (r : BlkReq) (s : (ℕ → UInt8) × Drive) : (ℕ → UInt8) × Drive :=
  blkioLoop r.write r.blkcnt r.blkno r.buf s

/-! ## One block -/

/-- The drive is ready for four bytes more of a block. -/
structure Drive.Ready (d : Drive) (write : Bool) (lba pos : ℕ) : Prop where
  busy : d.busy = 0
  command : d.command = some write
  lba : d.lba = lba
  pos : d.pos = pos
  size : d.size = BLKSZ

section Block

variable {d : Drive} {write : Bool} {lba pos n : ℕ}

/-- The driver waits until the drive is no longer busy. -/
theorem waitDisk_eq (d : Drive) : waitDisk d = { d with busy := 0 } := by
  rcases d with ⟨c, l, m, h, dr, cmd, lba, pos, size, busy, delay, time, disk⟩
  induction busy with
  | zero =>
      rw [waitDisk, Drive.status]
      simp only [gt_iff_lt, Nat.lt_irrefl, if_false]
      rw [if_neg]
      cases cmd.isSome <;> decide
  | succ busy ih =>
      rw [waitDisk, Drive.status]
      simp only [gt_iff_lt, Nat.succ_pos, if_true, Nat.add_sub_cancel]
      rw [if_pos (by decide), ih]

/-- Of the number of the block, 28 bits arrive. -/
theorem lba_eq (blkno : ℕ) : blkno.toUInt8.toNat + (blkno >>> 8).toUInt8.toNat * 2 ^ 8 +
    (blkno >>> 16).toUInt8.toNat * 2 ^ 16 +
      ((blkno >>> 24) ||| 0xe0).toUInt8.toNat % 2 ^ 4 * 2 ^ 24 = blkno % 2 ^ 28 := by
  have hhead : ((blkno >>> 24) ||| 0xe0) % 2 ^ 8 % 2 ^ 4 = blkno >>> 24 % 2 ^ 4 := by
    rw [Nat.mod_mod_of_dvd _ (by decide : 2 ^ 4 ∣ 2 ^ 8), Nat.or_mod_two_pow]
    exact Nat.or_zero _
  simp only [Nat.toUInt8, UInt8.toNat_ofNat']
  rw [hhead]
  simp only [Nat.shiftRight_eq_div_pow]
  omega

/-- The drive is ready for the block. -/
theorem startBlock_ready (write : Bool) {cmd : UInt8} (hcmd : cmd = if write then 0x30 else 0x20)
    (blkno : ℕ) (d : Drive) : (startBlock blkno cmd d).Ready write (blkno % 2 ^ 28) 0 ∧
      (startBlock blkno cmd d).disk = d.disk := by
  unfold startBlock
  simp only [waitDisk_eq, Drive.outb, gt_iff_lt, Nat.lt_irrefl, if_false]
  subst hcmd
  cases write
  · exact ⟨⟨rfl, rfl, lba_eq blkno, rfl, rfl⟩, rfl⟩
  · exact ⟨⟨rfl, rfl, lba_eq blkno, rfl, rfl⟩, rfl⟩

theorem Drive.Ready.advance (h : d.Ready write lba pos) (hpos : pos + 4 < BLKSZ) :
    d.advance.Ready write lba (pos + 4) := by
  rcases h with ⟨hbusy, hcmd, hlba, hpos', hsize⟩
  unfold Drive.advance
  simp only
  rw [if_neg (by rw [hpos', Nat.mod_eq_of_lt hpos]; omega)]
  refine ⟨hbusy, ?_, hlba, by rw [hpos'], hsize⟩
  simp only
  rw [if_neg (by rw [hpos', hsize]; omega), hcmd]

theorem Drive.advance_disk : d.advance.disk = d.disk := by
  unfold Drive.advance
  simp only
  split <;> rfl

/-- What `n` rounds bring from a block into memory. -/
theorem insl_spec (ptr : ℕ) (mem : ℕ → UInt8) (h : d.Ready false lba 0) (hn : n ≤ BLKSZ / 4) :
    (insl ptr n (mem, d)).1 = copyTo d.disk ptr (BLKSZ * lba) (4 * n) mem ∧
      (insl ptr n (mem, d)).2.disk = d.disk ∧
      (n < BLKSZ / 4 → (insl ptr n (mem, d)).2.Ready false lba (4 * n)) := by
  induction n with
  | zero => exact ⟨rfl, rfl, fun _ => h⟩
  | succ n ih =>
      rcases ih (Nat.le_of_succ_le hn) with ⟨hmem, hdisk, hready⟩
      have hr := hready hn
      have hinl : (insl ptr n (mem, d)).2.inl =
          (loadDword d.disk (BLKSZ * lba + 4 * n), (insl ptr n (mem, d)).2.advance) := by
        rw [Drive.inl, if_pos ⟨hr.busy, hr.command⟩, hr.lba, hr.pos, hdisk]
      rw [insl]
      simp only
      rw [hinl, storeDword_loadDword, hmem, copyTo_add, Nat.mul_succ]
      refine ⟨rfl, Drive.advance_disk.trans hdisk, fun hlt => hr.advance ?_⟩
      unfold BLKSZ at hlt ⊢
      omega

/-- What `n` rounds bring from memory into a block. -/
theorem outsl_spec (ptr : ℕ) (mem : ℕ → UInt8) (h : d.Ready true lba 0) (hn : n ≤ BLKSZ / 4) :
    (outsl mem ptr n d).disk = copyTo mem (BLKSZ * lba) ptr (4 * n) d.disk ∧
      (n < BLKSZ / 4 → (outsl mem ptr n d).Ready true lba (4 * n)) := by
  induction n with
  | zero => exact ⟨rfl, fun _ => h⟩
  | succ n ih =>
      rcases ih (Nat.le_of_succ_le hn) with ⟨hdisk, hready⟩
      have hr := hready hn
      have hr' : { outsl mem ptr n d with
          disk := storeDword (BLKSZ * (outsl mem ptr n d).lba + (outsl mem ptr n d).pos)
            (loadDword mem (ptr + 4 * n)) (outsl mem ptr n d).disk }.Ready true lba (4 * n) :=
        ⟨hr.busy, hr.command, hr.lba, hr.pos, hr.size⟩
      rw [outsl, Drive.outl, if_pos ⟨hr.busy, hr.command⟩, Nat.mul_succ]
      refine ⟨?_, fun hlt => hr'.advance ?_⟩
      · rw [Drive.advance_disk]
        simp only
        rw [storeDword_loadDword, hr.lba, hr.pos, hdisk, copyTo_add]
      · unfold BLKSZ at hlt ⊢
        omega

end Block

/-- `read_disk`, and a round of `disk_blkio` that reads. -/
theorem readBlock_spec (blkno ptr : ℕ) (s : (ℕ → UInt8) × Drive) (h : blkno < 2 ^ 28) :
    (insl ptr (BLKSZ / 4) (s.1, startBlock blkno 0x20 s.2)).1 =
      copyTo s.2.disk ptr (BLKSZ * blkno) BLKSZ s.1 ∧
      (insl ptr (BLKSZ / 4) (s.1, startBlock blkno 0x20 s.2)).2.disk = s.2.disk := by
  have hsize : 4 * (BLKSZ / 4) = BLKSZ := rfl
  rcases startBlock_ready false (show (0x20 : UInt8) = _ from rfl) blkno s.2 with ⟨hready, hdisk⟩
  rw [Nat.mod_eq_of_lt h] at hready
  rcases insl_spec ptr s.1 hready (Nat.le_refl _) with ⟨hmem, hdisk', -⟩
  rw [hdisk, hsize] at hmem
  rw [hdisk] at hdisk'
  exact ⟨hmem, hdisk'⟩

/-- A round of `disk_blkio` that writes. -/
theorem writeBlock_spec (blkno ptr : ℕ) (mem : ℕ → UInt8) (d : Drive) (h : blkno < 2 ^ 28) :
    (outsl mem ptr (BLKSZ / 4) (startBlock blkno 0x30 d)).disk =
      copyTo mem (BLKSZ * blkno) ptr BLKSZ d.disk := by
  have hsize : 4 * (BLKSZ / 4) = BLKSZ := rfl
  rcases startBlock_ready true (show (0x30 : UInt8) = _ from rfl) blkno d with ⟨hready, hdisk⟩
  rw [Nat.mod_eq_of_lt h] at hready
  rcases outsl_spec ptr mem hready (Nat.le_refl _) with ⟨hdisk', -⟩
  rw [hdisk, hsize] at hdisk'
  exact hdisk'

/-! ## Requests -/

/-- A request, on an array of blocks. -/
def BlkReq.apply (r : BlkReq) (s : (ℕ → UInt8) × (ℕ → UInt8)) : (ℕ → UInt8) × (ℕ → UInt8) :=
  if r.write then (s.1, copyTo s.1 (BLKSZ * r.blkno) r.buf (BLKSZ * r.blkcnt) s.2)
  else (copyTo s.2 r.buf (BLKSZ * r.blkno) (BLKSZ * r.blkcnt) s.1, s.2)

/-- The memory and the disk. -/
def contents (s : (ℕ → UInt8) × Drive) : (ℕ → UInt8) × (ℕ → UInt8) := (s.1, s.2.disk)

theorem contents_fst (s : (ℕ → UInt8) × Drive) : (contents s).1 = s.1 := rfl

theorem contents_snd (s : (ℕ → UInt8) × Drive) : (contents s).2 = s.2.disk := rfl

section Requests

variable {blkno ptr remain : ℕ} {s : (ℕ → UInt8) × Drive}

theorem blkioLoop_read (h : blkno + remain ≤ 2 ^ 28) :
    contents (blkioLoop false remain blkno ptr s) =
      (copyTo s.2.disk ptr (BLKSZ * blkno) (BLKSZ * remain) s.1, s.2.disk) := by
  induction remain generalizing blkno ptr s with
  | zero => rfl
  | succ remain ih =>
      rcases readBlock_spec blkno ptr s (by omega) with ⟨hmem, hdisk⟩
      have hround : blkioLoop false (remain + 1) blkno ptr s =
          blkioLoop false remain (blkno + 1) (ptr + BLKSZ)
            (insl ptr (BLKSZ / 4) (s.1, startBlock blkno 0x20 s.2)) := rfl
      rw [hround, ih (by omega), hmem, hdisk, Nat.mul_succ BLKSZ blkno, copyTo_add, Nat.mul_succ,
        Nat.add_comm (BLKSZ * remain)]

theorem blkioLoop_write (h : blkno + remain ≤ 2 ^ 28) :
    contents (blkioLoop true remain blkno ptr s) =
      (s.1, copyTo s.1 (BLKSZ * blkno) ptr (BLKSZ * remain) s.2.disk) := by
  induction remain generalizing blkno ptr s with
  | zero => rfl
  | succ remain ih =>
      have hdisk := writeBlock_spec blkno ptr s.1 s.2 (by omega)
      have hround : blkioLoop true (remain + 1) blkno ptr s =
          blkioLoop true remain (blkno + 1) (ptr + BLKSZ)
            (s.1, outsl s.1 ptr (BLKSZ / 4) (startBlock blkno 0x30 s.2)) := rfl
      rw [hround, ih (by omega), hdisk, Nat.mul_succ BLKSZ blkno, copyTo_add, Nat.mul_succ,
        Nat.add_comm (BLKSZ * remain)]

theorem diskBlkio_apply {r : BlkReq} (h : r.blkno + r.blkcnt ≤ 2 ^ 28) :
    contents (diskBlkio r s) = r.apply (contents s) := by
  unfold diskBlkio BlkReq.apply
  by_cases hw : r.write = true
  · rw [hw, if_pos rfl]
    exact blkioLoop_write h
  · rw [if_neg hw, Bool.eq_false_of_not_eq_true hw]
    exact blkioLoop_read h

end Requests

/-- Any sequence of requests does to memory and disk what it would do to an array of blocks, however
long the drive takes. -/
theorem diskBlkio_refines {rs : List BlkReq} (h : ∀ r ∈ rs, r.blkno + r.blkcnt ≤ 2 ^ 28)
    (s : (ℕ → UInt8) × Drive) :
    contents (rs.foldl (fun s r => diskBlkio r s) s) =
      rs.foldl (fun s r => r.apply s) (contents s) := by
  induction rs generalizing s with
  | nil => rfl
  | cons r rs ih =>
      rw [List.foldl_cons, List.foldl_cons, ih fun r' hr' => h r' (List.mem_cons_of_mem r hr'),
        diskBlkio_apply (h r List.mem_cons_self)]

/-- Two blocks are written, and one of them read back to another place. -/
theorem diskBlkio_refines_two : contents
    ([⟨true, 0, 5, 2⟩, ⟨false, 0x4000, 6, 1⟩].foldl (fun s r => diskBlkio r s)
      (fun a => a.toUInt8, ⟨0, 0, 0, 0, 0, none, 0, 0, 0, 3, fun n => n % 5, 0, fun _ => 0⟩)) =
    [⟨true, 0, 5, 2⟩, ⟨false, 0x4000, 6, 1⟩].foldl (fun s r => BlkReq.apply r s)
      (fun a => a.toUInt8, fun _ => 0) :=
  diskBlkio_refines (by decide) _

/-! ## The blocks of `dev_sd.c` -/

/-- `sd->buf` is in memory at `buf`, and the disk is that of the drive. -/
structure SdOn (buf : ℕ) (d : SdDev) (s : (ℕ → UInt8) × Drive) : Prop where
  blksz : d.blksz = BLKSZ
  blkcnt : d.blkcnt ≤ 2 ^ 28
  disk : s.2.disk = d.disk
  buf : ∀ i < BLKSZ, s.1 (buf + i) = d.buf i

section Sd

variable {buf blkno : ℕ} {d d' : SdDev} {s : (ℕ → UInt8) × Drive}

/-- `blk_read` through the ports. -/
theorem SdOn.blkRead (h : SdOn buf d s) (hr : d.blkRead blkno = some d') :
    SdOn buf d' (diskBlkio ⟨false, buf, blkno, 1⟩ s) := by
  unfold SdDev.blkRead at hr
  split at hr
  · rename_i hlt
    obtain rfl := Option.some.inj hr
    have hio := diskBlkio_apply (r := ⟨false, buf, blkno, 1⟩) (s := s)
      (Nat.le_trans (Nat.succ_le_of_lt hlt) h.blkcnt)
    have hmem := congrArg Prod.fst hio
    have hdisk := congrArg Prod.snd hio
    rw [contents_fst] at hmem
    rw [contents_snd] at hdisk
    refine ⟨h.blksz, h.blkcnt, hdisk.trans h.disk, fun i hi => (congrFun hmem (buf + i)).trans ?_⟩
    simp only [BlkReq.apply, contents, Bool.false_eq_true, if_false]
    rw [copyTo_apply, copyTo_apply, h.blksz, h.disk, if_pos (by omega), if_pos (by omega),
      Nat.add_sub_cancel_left, Nat.sub_zero, Nat.mul_comm]
  · cases hr

/-- `blk_write` through the ports. -/
theorem SdOn.blkWrite (h : SdOn buf d s) (hr : d.blkWrite blkno = some d') :
    SdOn buf d' (diskBlkio ⟨true, buf, blkno, 1⟩ s) := by
  unfold SdDev.blkWrite at hr
  split at hr
  · rename_i hlt
    obtain rfl := Option.some.inj hr
    have hio := diskBlkio_apply (r := ⟨true, buf, blkno, 1⟩) (s := s)
      (Nat.le_trans (Nat.succ_le_of_lt hlt) h.blkcnt)
    have hmem := congrArg Prod.fst hio
    have hdisk := congrArg Prod.snd hio
    rw [contents_fst] at hmem
    rw [contents_snd] at hdisk
    refine ⟨h.blksz, h.blkcnt, hdisk.trans ?_, fun i hi =>
      (congrFun hmem (buf + i)).trans (h.buf i hi)⟩
    simp only [BlkReq.apply, contents, if_true]
    funext a
    rw [copyTo_apply, copyTo_apply, h.blksz, h.disk, Nat.mul_one, Nat.mul_comm]
    split
    · rw [Nat.zero_add]
      exact h.buf _ (by omega)
    · rfl
  · cases hr

end Sd

end OsLab.Ata
