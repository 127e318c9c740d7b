import OsLab.Common
import OsLab.Lib.Copy

/-! # The disk (`dev_sd.c`)

The device is a row of `blkcnt` blocks of `blksz` bytes that are read and written
one at a time; here its bytes are numbered through. `sd_read` and `sd_write` go
through all blocks of the range with one block buffer, `sd->buf`.

`st`, `pos` and `n` are `uint32_t`; `offset` and `count` are `int`, but only occur
together with unsigned variables, and are taken to be nonnegative.
-/

namespace OsLab

open Copy

/-- `a - b` of two `uint32_t`. -/
def sub32 (a b : ℕ) : ℕ := (a + 2 ^ 32 - b % 2 ^ 32) % 2 ^ 32

/-- `a + b` of two `uint32_t`. -/
def add32 (a b : ℕ) : ℕ := (a + b) % 2 ^ 32

/-- `ROUNDDOWN`. -/
def roundDown (a sz : ℕ) : ℕ := a - (a &&& (sz - 1))

/-- `sd_t`, with the disk behind it. -/
structure SdDev where
  blkcnt : ℕ
  blksz : ℕ
  buf : ℕ → UInt8
  disk : ℕ → UInt8

namespace SdDev

/-- `blk_read(sd->buf, blkno, 1)`; the device has no block `blkcnt`. -/
def blkRead (blkno : ℕ) (d : SdDev) : Option SdDev :=
  if blkno < d.blkcnt then
    some { d with buf := copyTo d.disk 0 (blkno * d.blksz) d.blksz d.buf }
  else none

/-- `blk_write(sd->buf, blkno, 1)`. -/
def blkWrite (blkno : ℕ) (d : SdDev) : Option SdDev :=
  if blkno < d.blkcnt then
    some { d with disk := copyTo d.buf (blkno * d.blksz) 0 d.blksz d.disk }
  else none

/-- `memcpy` of `n` bytes from `data + pos` to `sd->buf + dst`. -/
def fill (data : ℕ → UInt8) (pos dst n : ℕ) (d : SdDev) : SdDev :=
  { d with buf := copyTo data dst pos n d.buf }

end SdDev

/-- The local variables of the loop. -/
structure SdVars where
  offset : ℕ
  st : ℕ
  pos : ℕ

namespace SdVars

/-- Before the first round. -/
def init (blksz offset : ℕ) : SdVars := ⟨offset, roundDown offset blksz, 0⟩

/-- `n` of this round. -/
def len (v : SdVars) (blksz count : ℕ) : ℕ :=
  let n := sub32 blksz (sub32 v.offset v.st)
  if n > sub32 count v.pos then sub32 count v.pos else n

/-- The variables in the next round. -/
def next (v : SdVars) (blksz n : ℕ) : SdVars := ⟨add32 v.st blksz, add32 v.st blksz, add32 v.pos n⟩

end SdVars

/-- The loop of `sd_read`, with at most `fuel` rounds. -/
def sdReadLoop (count : ℕ) : ℕ → SdVars → (ℕ → UInt8) → SdDev → Option (ℕ × (ℕ → UInt8) × SdDev)
  | 0, _, _, _ => none
  | fuel + 1, v, buf, d =>
      if v.pos < count then
        let n := v.len d.blksz count
        (d.blkRead (v.st / d.blksz)).bind fun d =>
          let buf := copyTo d.buf v.pos (v.offset - v.st) n buf
          sdReadLoop count fuel (v.next d.blksz n) buf d
      else some (v.pos, buf, d)

/-- `sd_read`: what it returns, the caller's buffer and the device afterwards. -/
def sdRead (fuel offset count : ℕ) (buf : ℕ → UInt8) (d : SdDev) :
    Option (ℕ × (ℕ → UInt8) × SdDev) :=
  sdReadLoop count fuel (.init d.blksz offset) buf d

/-- The loop of `sd_write`. -/
def sdWriteLoop (count : ℕ) (data : ℕ → UInt8) : ℕ → SdVars → SdDev → Option (ℕ × SdDev)
  | 0, _, _ => none
  | fuel + 1, v, d =>
      if v.pos < count then
        let n := v.len d.blksz count
        (if n < d.blksz then d.blkRead (v.st / d.blksz) else some d).bind fun d =>
          ((d.fill data v.pos (v.offset - v.st) n).blkWrite (v.st / d.blksz)).bind fun d =>
            sdWriteLoop count data fuel (v.next d.blksz n) d
      else some (v.pos, d)

/-- `sd_write`. -/
def sdWrite (fuel offset count : ℕ) (data : ℕ → UInt8) (d : SdDev) : Option (ℕ × SdDev) :=
  sdWriteLoop count data fuel (.init d.blksz offset) d

/-! ## The variables of the loop -/

/-- A sum that fits does not wrap round. -/
theorem add32_eq {a b : ℕ} (h : a + b < 2 ^ 32) : add32 a b = a + b := Nat.mod_eq_of_lt h

/-- Nor does a difference that is not negative. -/
theorem sub32_eq {a b : ℕ} (h : b ≤ a) (ha : a < 2 ^ 32) : sub32 a b = a - b := by
  unfold sub32
  rw [Nat.mod_eq_of_lt (Nat.lt_of_le_of_lt h ha), Nat.sub_add_comm h, Nat.add_mod_right,
    Nat.mod_eq_of_lt (Nat.lt_of_le_of_lt (Nat.sub_le a b) ha)]

/-- An operation on a range that lies on the disk, whose block size is a power of two. -/
structure SdRange (blkcnt blksz offset count : ℕ) : Prop where
  pow : ∃ b, blksz = 2 ^ b
  le_disk : offset + count ≤ blkcnt * blksz
  lt_int : offset + count + blksz < 2 ^ 31

/-- The variables when `pos` bytes are done; after the last round only `pos` counts. -/
structure SdVars.At (v : SdVars) (blksz offset count : ℕ) : Prop where
  le : v.pos ≤ count
  offset_eq : v.pos < count → v.offset = offset + v.pos
  st_eq : v.pos < count → v.st = (offset + v.pos) / blksz * blksz

section Vars

variable {blkcnt blksz offset count : ℕ} {v : SdVars}

theorem SdRange.pos (hr : SdRange blkcnt blksz offset count) : 0 < blksz := by
  rcases hr.pow with ⟨b, rfl⟩
  exact Nat.two_pow_pos b

theorem SdVars.at_init (hr : SdRange blkcnt blksz offset count) :
    (SdVars.init blksz offset).At blksz offset count := by
  refine ⟨Nat.zero_le _, fun _ => rfl, fun _ => ?_⟩
  rcases hr.pow with ⟨b, rfl⟩
  simp only [SdVars.init, roundDown, land_mask, Nat.add_zero]
  exact sub_mod_eq offset b

/-- What a round does: it deals with `n` bytes, all in the block number `st / blksz`, at the place
`offset - st` of it. -/
structure SdVars.Round (v : SdVars) (blkcnt blksz offset count n : ℕ) : Prop where
  pos : 0 < n
  le : v.pos + n ≤ count
  blk_lt : v.st / blksz < blkcnt
  st_eq : v.st / blksz * blksz = v.st
  st_le : v.st ≤ v.offset
  offset_eq : v.offset = offset + v.pos
  inside : v.offset - v.st + n ≤ blksz

theorem SdVars.At.round (hv : v.At blksz offset count) (hr : SdRange blkcnt blksz offset count)
    (hpos : v.pos < count) :
    v.Round blkcnt blksz offset count (v.len blksz count) ∧
      (v.next blksz (v.len blksz count)).At blksz offset count := by
  have hblk := hr.pos
  have hoff := hv.offset_eq hpos
  have hst := hv.st_eq hpos
  have hle := hr.le_disk
  have hlt := hr.lt_int
  have hdiv := Nat.div_add_mod' (offset + v.pos) blksz
  have hmod := Nat.mod_lt (offset + v.pos) hblk
  have hquot : v.st / blksz = (offset + v.pos) / blksz := by
    rw [hst, Nat.mul_div_cancel _ hblk]
  -- nothing wraps round
  have hword : 2 ^ 31 < 2 ^ 32 := by decide
  have hlen : v.len blksz count = min (blksz - (v.offset - v.st)) (count - v.pos) := by
    unfold SdVars.len
    rw [sub32_eq (a := v.offset) (by omega) (by omega), sub32_eq (a := blksz) (by omega) (by omega),
      sub32_eq (a := count) (by omega) (by omega)]
    simp only
    split <;> omega
  constructor
  · constructor
    · omega
    · omega
    · rw [hquot, Nat.div_lt_iff_lt_mul hblk]
      omega
    · rw [hquot, ← hst]
    · omega
    · exact hoff
    · omega
  · have hpos' : (v.next blksz (v.len blksz count)).pos = v.pos + v.len blksz count := by
      exact add32_eq (by omega)
    have hst' : (v.next blksz (v.len blksz count)).st = v.st + blksz := by
      exact add32_eq (by omega)
    have hoff' : (v.next blksz (v.len blksz count)).offset = v.st + blksz := hst'
    refine ⟨by omega, fun h => by omega, fun h => ?_⟩
    -- there is a next block: this one was filled up
    rw [hst', show offset + (v.next blksz (v.len blksz count)).pos = v.st + blksz by omega, hst,
      ← Nat.succ_mul, Nat.mul_div_cancel _ hblk]

theorem SdVars.Round.next_pos {n : ℕ} (h : v.Round blkcnt blksz offset count n)
    (hr : SdRange blkcnt blksz offset count) : (v.next blksz n).pos = v.pos + n := by
  have hle := h.le
  have hlt := hr.lt_int
  exact add32_eq (by omega)

end Vars

/-! ## One round -/

section Rounds

variable {offset count n : ℕ} {v : SdVars} {d : SdDev}

/-- The bytes that a round of `sd_read` copies out. -/
theorem SdVars.Round.blkRead (h : v.Round d.blkcnt d.blksz offset count n) :
    ∃ buf, d.blkRead (v.st / d.blksz) = some { d with buf := buf } ∧
      ∀ i < d.blksz, buf i = d.disk (v.st + i) := by
  refine ⟨copyTo d.disk 0 v.st d.blksz d.buf, ?_, ?_⟩
  · rw [SdDev.blkRead, if_pos h.blk_lt, h.st_eq]
  · intro i hi
    rw [copyTo_apply, if_pos (by omega), Nat.sub_zero]

theorem SdVars.Round.copyOut (h : v.Round d.blkcnt d.blksz offset count n) {b : ℕ → UInt8}
    (hb : ∀ i < d.blksz, b i = d.disk (v.st + i)) (buf : ℕ → UInt8) :
    copyTo b v.pos (v.offset - v.st) n buf = copyTo d.disk v.pos v.offset n buf := by
  have hin := h.inside
  have hle := h.st_le
  funext a
  simp only [copyTo_apply]
  by_cases ha : v.pos ≤ a ∧ a < v.pos + n
  · rw [if_pos ha, if_pos ha, hb _ (by omega)]
    congr 1
    omega
  · rw [if_neg ha, if_neg ha]

/-- A round of `sd_write` writes `n` bytes, if the bytes of the block that are not written are in
the buffer before, or there are none. -/
theorem SdVars.Round.store (h : v.Round d.blkcnt d.blksz offset count n) {data : ℕ → UInt8}
    (hbuf : ∀ i < d.blksz, n < d.blksz → d.buf i = d.disk (v.st + i)) :
    (d.fill data v.pos (v.offset - v.st) n).blkWrite (v.st / d.blksz) =
      some { d with
        buf := copyTo data (v.offset - v.st) v.pos n d.buf
        disk := copyTo data v.offset v.pos n d.disk } := by
  have hin := h.inside
  have hle := h.st_le
  have hst := h.st_eq
  unfold SdDev.blkWrite SdDev.fill
  simp only
  rw [if_pos h.blk_lt, hst]
  congr 2
  funext a
  rw [copyTo_apply, copyTo_apply, copyTo_apply]
  by_cases ha : v.st ≤ a ∧ a < v.st + d.blksz
  · rw [if_pos ha]
    by_cases hnew : v.offset ≤ a ∧ a < v.offset + n
    · rw [if_pos (by omega), if_pos hnew]
      congr 1
      omega
    · -- the rest of the block is as it was read
      rw [if_neg (by omega), if_neg hnew, hbuf _ (by omega) (by omega)]
      congr 1
      omega
  · rw [if_neg ha, if_neg (by omega)]

end Rounds

/-! ## The two operations -/

section Exact

variable {offset count : ℕ} {v : SdVars} {d : SdDev}

theorem sdReadLoop_eq (hr : SdRange d.blkcnt d.blksz offset count) (buf₀ : ℕ → UInt8) (fuel : ℕ)
    (hv : v.At d.blksz offset count) (hfuel : count - v.pos < fuel) :
    ∃ b, sdReadLoop count fuel v (copyTo d.disk 0 offset v.pos buf₀) d =
      some (count, copyTo d.disk 0 offset count buf₀, { d with buf := b }) := by
  induction fuel generalizing v d with
  | zero => omega
  | succ fuel ih =>
      rw [sdReadLoop]
      split
      · rename_i hpos
        rcases hv.round hr hpos with ⟨hround, hnext⟩
        rcases hround.blkRead with ⟨b, hread, hb⟩
        have hpos' := hround.pos
        have hadd := hround.next_pos hr
        simp only [hread, Option.bind_some]
        have hcopy : copyTo d.disk v.pos v.offset (v.len d.blksz count)
            (copyTo d.disk 0 offset v.pos buf₀) =
              copyTo d.disk 0 offset (v.next d.blksz (v.len d.blksz count)).pos buf₀ := by
          have hadd' := copyTo_add d.disk 0 offset v.pos (v.len d.blksz count) buf₀
          rwa [Nat.zero_add, ← hround.offset_eq, ← hadd] at hadd'
        rw [hround.copyOut hb, hcopy]
        exact ih (d := { d with buf := b }) hr hnext (by omega)
      · rename_i hpos
        have hle := hv.le
        obtain rfl : v.pos = count := by omega
        exact ⟨d.buf, rfl⟩

theorem sdWriteLoop_eq (hr : SdRange d.blkcnt d.blksz offset count) (data disk : ℕ → UInt8)
    (fuel : ℕ) (hv : v.At d.blksz offset count) (hfuel : count - v.pos < fuel)
    (hdisk : d.disk = copyTo data offset 0 v.pos disk) :
    ∃ b, sdWriteLoop count data fuel v d =
      some (count, { d with buf := b, disk := copyTo data offset 0 count disk }) := by
  induction fuel generalizing v d with
  | zero => omega
  | succ fuel ih =>
      rw [sdWriteLoop]
      split
      · rename_i hpos
        rcases hv.round hr hpos with ⟨hround, hnext⟩
        rcases hround.blkRead with ⟨b, hread, hb⟩
        have hpos' := hround.pos
        have hadd := hround.next_pos hr
        -- the buffer holds the block, unless all of it will be written
        obtain ⟨b', hget, hb'⟩ : ∃ b',
            (if v.len d.blksz count < d.blksz then d.blkRead (v.st / d.blksz) else some d) =
              some { d with buf := b' } ∧
            ∀ i < d.blksz, v.len d.blksz count < d.blksz → b' i = d.disk (v.st + i) := by
          split
          · exact ⟨b, hread, fun i hi _ => hb i hi⟩
          · rename_i hfull
            exact ⟨d.buf, rfl, fun i _ hlt => absurd hlt hfull⟩
        simp only [hget, Option.bind_some]
        rw [SdVars.Round.store (d := { d with buf := b' }) hround hb', Option.bind_some]
        have hdisk' : copyTo data v.offset v.pos (v.len d.blksz count) d.disk =
            copyTo data offset 0 (v.next d.blksz (v.len d.blksz count)).pos disk := by
          have hadd' := copyTo_add data offset 0 v.pos (v.len d.blksz count) disk
          rwa [Nat.zero_add, ← hround.offset_eq, ← hadd, ← hdisk] at hadd'
        have hless : count - (v.next d.blksz (v.len d.blksz count)).pos < fuel := by omega
        exact ih (d := { d with
          buf := copyTo data (v.offset - v.st) v.pos (v.len d.blksz count) b'
          disk := copyTo data v.offset v.pos (v.len d.blksz count) d.disk })
          hr hnext hless hdisk'
      · rename_i hpos
        have hle := hv.le
        obtain rfl : v.pos = count := by omega
        refine ⟨d.buf, ?_⟩
        rw [← hdisk]

/-- What `sd_read` is for. -/
def SdReadExact (fuel offset count : ℕ) (d : SdDev) : Prop :=
  ∀ buf, ∃ buf' d', sdRead fuel offset count buf d = some (count, buf', d') ∧
    (∀ i < count, buf' i = d.disk (offset + i)) ∧ (∀ i, count ≤ i → buf' i = buf i) ∧
    d'.disk = d.disk

/-- What `sd_write` is for. -/
def SdWriteExact (fuel offset count : ℕ) (d : SdDev) : Prop :=
  ∀ data, ∃ d', sdWrite fuel offset count data d = some (count, d') ∧
    (∀ i < count, d'.disk (offset + i) = data i) ∧
    ∀ a, a < offset ∨ offset + count ≤ a → d'.disk a = d.disk a

/-- **Disk reads and writes are byte-exact**, and come back after at most `count` rounds; the
blocks they name are all on the disk, since others are refused. -/
theorem sdExact (hr : SdRange d.blkcnt d.blksz offset count) {fuel : ℕ} (hfuel : count < fuel) :
    SdReadExact fuel offset count d ∧ SdWriteExact fuel offset count d := by
  have hinit := SdVars.at_init hr
  constructor
  · intro buf
    rcases sdReadLoop_eq hr buf fuel hinit hfuel with ⟨b, hread⟩
    refine ⟨_, _, hread, ?_, ?_, rfl⟩
    · intro i hi
      rw [copyTo_apply, if_pos (by omega), Nat.sub_zero]
    · intro i hi
      rw [copyTo_apply, if_neg (by omega)]
  · intro data
    rcases sdWriteLoop_eq hr data d.disk fuel hinit hfuel rfl with ⟨b, hwrite⟩
    refine ⟨_, hwrite, ?_, ?_⟩
    · intro i hi
      simp only
      rw [copyTo_apply, if_pos (by omega), Nat.add_sub_cancel_left, Nat.zero_add]
    · intro a ha
      simp only
      rw [copyTo_apply, if_neg (by omega)]

/-- Five bytes from the middle of the first of three blocks. -/
theorem sdExact_threeBlocks :
    SdReadExact 6 3 5 ⟨3, 4, fun _ => 0, fun a => UInt8.ofNat a⟩ ∧
      SdWriteExact 6 3 5 ⟨3, 4, fun _ => 0, fun a => UInt8.ofNat a⟩ := by
  apply sdExact (d := ⟨3, 4, fun _ => 0, fun a => UInt8.ofNat a⟩)
  · exact ⟨⟨2, rfl⟩, by decide, by decide⟩
  · decide

end Exact

end OsLab
