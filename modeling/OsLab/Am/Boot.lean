import OsLab.Am.Ata
import OsLab.Lib.Words

/-! # The boot loader (`boot/main.c`)

The image on the disk is the boot block, 1024 bytes of arguments, and the ELF file of the kernel.
`load_kernel` brings the arguments and the first 4096 bytes of the file into memory, and then
the segments that the program headers describe, whole sectors at a time: the sector that a segment
starts in comes with the bytes before it. So that the bytes of a segment go where they belong,
address and offset must be congruent modulo the size of a sector.

Addresses and sizes are taken to be so small that no sum of them exceeds 32 bits.
-/

namespace OsLab.Boot

open Copy Ata Words

def SECTSIZE : ℕ := 512
def ARGSIZE : ℕ := 1024
def EM_X86_64 : ℕ := 62
def BOOTREC_ADDR : ℕ := 0x7000
def MAINARG_ADDR : ℕ := 0x10000
def ELF_ADDR : ℕ := 0x8000

/-- The memory and the drive. -/
abbrev Machine := (ℕ → UInt8) × Drive

/-- `read_disk`. -/
def readDisk (buf sect : ℕ) (s : Machine) : Machine :=
  insl buf (SECTSIZE / 4) (s.1, startBlock sect 0x20 s.2)

/-- The loop of `copy_from_disk`. -/
def copySectors (ed cur sect : ℕ) (s : Machine) : Machine :=
  if cur < ed then copySectors ed (cur + SECTSIZE) (sect + 1) (readDisk cur sect s) else s
termination_by ed - cur
decreasing_by
  unfold SECTSIZE
  omega

/-- `copy_from_disk`. -/
def copyFromDisk (buf nbytes : ℕ) (diskOffset : ℤ) (s : Machine) : Machine :=
  copySectors (buf + nbytes) (buf &&& (2 ^ 32 - 1 - (SECTSIZE - 1)))
    (diskOffset.tdiv SECTSIZE + (ARGSIZE / SECTSIZE : ℕ) + 1).toNat s

/-- What is used of a program header. -/
structure Phdr where
  filesz : ℕ
  memsz : ℕ
  paddr : ℕ
  offset : ℕ

/-- `load_program`. -/
def loadProgram (p : Phdr) (s : Machine) : Machine :=
  let s := copyFromDisk p.paddr p.filesz p.offset s
  (fill (p.paddr + p.filesz) ((p.memsz + 2 ^ 32 - p.filesz) % 2 ^ 32) 0 s.1, s.2)

/-- Where the fields are in `Elf32_Ehdr` and `Elf32_Phdr`, or in those of 64 bits: the size of an
address, then the places of `e_phoff`, `e_phnum`, `p_offset`, `p_paddr`, `p_filesz`, `p_memsz`. -/
structure ElfClass where
  word : ℕ
  phoff : ℕ
  phnum : ℕ
  phsize : ℕ
  offset : ℕ
  paddr : ℕ
  filesz : ℕ
  memsz : ℕ

def elf32 : ElfClass := ⟨4, 28, 44, 32, 4, 12, 16, 20⟩
def elf64 : ElfClass := ⟨8, 32, 56, 56, 8, 24, 32, 40⟩

/-- `ph->p_filesz` and so on, as `uint32_t`. -/
def ElfClass.phdr (c : ElfClass) (mem : ℕ → UInt8) (ph : ℕ) : Phdr where
  filesz := leWord mem (ph + c.filesz) c.word % 2 ^ 32
  memsz := leWord mem (ph + c.memsz) c.word % 2 ^ 32
  paddr := leWord mem (ph + c.paddr) c.word % 2 ^ 32
  offset := leWord mem (ph + c.offset) c.word % 2 ^ 32

/-- The loop of `load_elf32` and `load_elf64`; `e_phnum` is read in each round. -/
def loadElfLoop (c : ElfClass) (elf ph i : ℕ) (s : Machine) : Machine :=
  if i < leWord s.1 (elf + c.phnum) 2 then
    loadElfLoop c elf (ph + c.phsize) (i + 1) (loadProgram (c.phdr s.1 ph) s)
  else s
termination_by 2 ^ 16 - i
decreasing_by
  have hlt := leWord_lt s.1 (elf + c.phnum) 2
  omega

def loadElf (c : ElfClass) (elf : ℕ) (s : Machine) : Machine :=
  loadElfLoop c elf ((elf + leWord s.1 (elf + c.phoff) c.word) % 2 ^ 32) 0 s

def loadElf32 : ℕ → Machine → Machine := loadElf elf32
def loadElf64 : ℕ → Machine → Machine := loadElf elf64

/-- `load_kernel`: the address it jumps to, and the machine then. -/
def loadKernel (s : Machine) : ℕ × Machine :=
  let isAp := leWord s.1 (BOOTREC_ADDR + 4) 4
  let s :=
    if isAp = 0 then
      let s := copyFromDisk MAINARG_ADDR 1024 (-1024) s
      let s := copyFromDisk ELF_ADDR 4096 0 s
      if leWord s.1 (ELF_ADDR + 18) 2 = EM_X86_64 then loadElf64 ELF_ADDR s
      else loadElf32 ELF_ADDR s
    else s
  if leWord s.1 (ELF_ADDR + 18) 2 = EM_X86_64 then (leWord s.1 (ELF_ADDR + 24) 8 % 2 ^ 32, s)
  else (leWord s.1 (ELF_ADDR + 24) 4, s)

/-! ## The file -/

/-- The ELF file on a disk. -/
def fileOf (disk : ℕ → UInt8) (j : ℕ) : UInt8 := disk (SECTSIZE + ARGSIZE + j)

/-- The class of a file. -/
def classOf (file : ℕ → UInt8) : ElfClass := if leWord file 18 2 = EM_X86_64 then elf64 else elf32

/-- The segments of a file, by its program headers. -/
def segments (file : ℕ → UInt8) : List Phdr :=
  let c := classOf file
  (List.range (leWord file c.phnum 2)).map fun i =>
    c.phdr file (leWord file c.phoff c.word + i * c.phsize)

/-- The first address that is loaded. -/
def Phdr.lo (p : Phdr) : ℕ := p.paddr / SECTSIZE * SECTSIZE

/-- The number of sectors that are loaded. -/
def Phdr.sectors (p : Phdr) : ℕ := (p.paddr + p.filesz - p.lo + (SECTSIZE - 1)) / SECTSIZE

/-- The addresses that loading a segment writes to. -/
def Phdr.Touches (p : Phdr) (a : ℕ) : Prop :=
  (p.lo ≤ a ∧ a < p.lo + SECTSIZE * p.sectors) ∨
    (p.paddr + p.filesz ≤ a ∧ a < p.paddr + p.memsz)

/-- What loading a segment writes there. -/
def Phdr.value (p : Phdr) (file : ℕ → UInt8) (a : ℕ) : UInt8 :=
  if p.paddr + p.filesz ≤ a ∧ a < p.paddr + p.memsz then 0
  else file (p.offset / SECTSIZE * SECTSIZE + (a - p.lo))

/-- A segment that `load_program` can load. -/
structure Phdr.Loadable (p : Phdr) : Prop where
  size : p.filesz ≤ p.memsz
  congr : p.paddr % SECTSIZE = p.offset % SECTSIZE
  addr : p.paddr + p.memsz < 2 ^ 32 - SECTSIZE
  file : p.offset + p.filesz < 2 ^ 31
  -- the boot record, the loader, the header and the stack stay
  low : ∀ a, p.Touches a → a < BOOTREC_ADDR ∨ 0xa000 ≤ a
  args : ∀ a, p.Touches a → a < MAINARG_ADDR ∨ MAINARG_ADDR + ARGSIZE ≤ a

/-- A file that the loader can load: where two segments, with the bytes that come with them, lie on
each other, they say the same. -/
structure Loadable (file : ℕ → UInt8) : Prop where
  headers : leWord file (classOf file).phoff (classOf file).word +
    leWord file (classOf file).phnum 2 * (classOf file).phsize ≤ 4096
  segment : ∀ p ∈ segments file, p.Loadable
  agree : ∀ p ∈ segments file, ∀ q ∈ segments file, ∀ a, p.Touches a → q.Touches a →
    p.value file a = q.value file a

/-- `e_entry`. -/
def entryOf (file : ℕ → UInt8) : ℕ :=
  if leWord file 18 2 = EM_X86_64 then leWord file 24 8 % 2 ^ 32 else leWord file 24 4

/-- What should be in memory when the kernel starts. -/
structure Loaded (s s' : Machine) : Prop where
  segment : ∀ p ∈ segments (fileOf s.2.disk),
    (∀ j < p.filesz, s'.1 (p.paddr + j) = fileOf s.2.disk (p.offset + j)) ∧
      ∀ j, p.filesz ≤ j → j < p.memsz → s'.1 (p.paddr + j) = 0
  args : ∀ j < ARGSIZE, s'.1 (MAINARG_ADDR + j) = s.2.disk (SECTSIZE + j)
  header : ∀ j < 4096, s'.1 (ELF_ADDR + j) = fileOf s.2.disk j
  other : ∀ a, (∀ p ∈ segments (fileOf s.2.disk), ¬ p.Touches a) →
    ¬ (MAINARG_ADDR ≤ a ∧ a < MAINARG_ADDR + ARGSIZE) →
    ¬ (ELF_ADDR ≤ a ∧ a < ELF_ADDR + 4096) → s'.1 a = s.1 a
  disk : s'.2.disk = s.2.disk

/-! ## Sectors -/

section Sectors

variable {ed cur sect buf nbytes n : ℕ} {s : Machine} {p : Phdr} {a : ℕ}

theorem readDisk_spec (cur : ℕ) (s : Machine) (h : sect < 2 ^ 28) :
    (readDisk cur sect s).1 = copyTo s.2.disk cur (SECTSIZE * sect) SECTSIZE s.1 ∧
      (readDisk cur sect s).2.disk = s.2.disk := by
  have hsize : SECTSIZE = BLKSZ := rfl
  rw [readDisk, hsize]
  exact readBlock_spec sect cur s h

/-- Whole sectors are read until the end is reached. -/
theorem copySectors_spec (hn : n = (ed - cur + (SECTSIZE - 1)) / SECTSIZE)
    (h : sect + n ≤ 2 ^ 28) : (copySectors ed cur sect s).1 =
      copyTo s.2.disk cur (SECTSIZE * sect) (SECTSIZE * n) s.1 ∧
      (copySectors ed cur sect s).2.disk = s.2.disk := by
  induction n generalizing cur sect s with
  | zero =>
      have hend : ¬ cur < ed := by
        unfold SECTSIZE at hn
        omega
      rw [copySectors, if_neg hend]
      exact ⟨rfl, rfl⟩
  | succ n ih =>
      have hlt : cur < ed := by
        unfold SECTSIZE at hn
        omega
      rcases readDisk_spec cur s (show sect < 2 ^ 28 by omega) with ⟨hmem, hdisk⟩
      rcases @ih (cur + SECTSIZE) (sect + 1) (readDisk cur sect s)
        (by unfold SECTSIZE at hn ⊢; omega) (by omega) with ⟨hmem', hdisk'⟩
      rw [copySectors, if_pos hlt, hmem', hdisk', hmem, hdisk, Nat.mul_succ SECTSIZE sect,
        copyTo_add, Nat.mul_succ, Nat.add_comm (SECTSIZE * n)]
      exact ⟨rfl, rfl⟩

/-- What `load_program` does to memory. -/
theorem loadProgram_spec (h : p.Loadable) : (loadProgram p s).2.disk = s.2.disk ∧
    (∀ a, p.Touches a → (loadProgram p s).1 a = p.value (fileOf s.2.disk) a) ∧
      ∀ a, ¬ p.Touches a → (loadProgram p s).1 a = s.1 a := by
  rcases h with ⟨hsize, -, haddr, hfile, -, -⟩
  have hlo : p.paddr &&& (2 ^ 32 - 1 - (SECTSIZE - 1)) = p.lo := by
    have hlt : p.paddr < 2 ^ 32 := by omega
    exact and_high (k := 9) hlt (by decide)
  have hsect : ((p.offset : ℤ).tdiv SECTSIZE + (ARGSIZE / SECTSIZE : ℕ) + 1).toNat =
      p.offset / SECTSIZE + 3 := by
    rw [← Int.ofNat_tdiv]
    unfold ARGSIZE SECTSIZE
    omega
  have hbss : (p.memsz + 2 ^ 32 - p.filesz) % 2 ^ 32 = p.memsz - p.filesz := by
    have hmem : p.memsz < 2 ^ 32 := by omega
    omega
  have hcopy : (copySectors (p.paddr + p.filesz) p.lo (p.offset / SECTSIZE + 3) s).1 = _ ∧ _ :=
    copySectors_spec (n := p.sectors) rfl (by unfold Phdr.sectors Phdr.lo SECTSIZE; omega)
  have hmem : (copyFromDisk p.paddr p.filesz p.offset s).1 =
      copyTo s.2.disk p.lo (SECTSIZE * (p.offset / SECTSIZE + 3)) (SECTSIZE * p.sectors) s.1 := by
    rw [copyFromDisk, hlo, hsect]
    exact hcopy.1
  have hdisk : (copyFromDisk p.paddr p.filesz p.offset s).2.disk = s.2.disk := by
    rw [copyFromDisk, hlo, hsect]
    exact hcopy.2
  have hpoint : ∀ a, (loadProgram p s).1 a =
      if p.paddr + p.filesz ≤ a ∧ a < p.paddr + p.memsz then 0
      else if p.lo ≤ a ∧ a < p.lo + SECTSIZE * p.sectors then
        s.2.disk (SECTSIZE * (p.offset / SECTSIZE + 3) + (a - p.lo))
      else s.1 a := by
    intro a
    rw [loadProgram]
    simp only
    rw [hbss, hmem, fill, copyTo_apply,
      show p.paddr + p.filesz + (p.memsz - p.filesz) = p.paddr + p.memsz by omega]
  refine ⟨hdisk, fun a ha => ?_, fun a ha => ?_⟩
  · rw [hpoint, Phdr.value]
    by_cases hb : p.paddr + p.filesz ≤ a ∧ a < p.paddr + p.memsz
    · rw [if_pos hb, if_pos hb]
    · rw [if_neg hb, if_neg hb, if_pos (ha.resolve_right hb), fileOf]
      refine congrArg s.2.disk ?_
      unfold ARGSIZE SECTSIZE
      omega
  · rw [hpoint, if_neg fun hb => ha (Or.inr hb), if_neg fun hl => ha (Or.inl hl)]

/-- What several segments do to memory, where they agree. -/
theorem foldl_loadProgram {ps : List Phdr} (h : ∀ p ∈ ps, p.Loadable)
    (hagree : ∀ p ∈ ps, ∀ q ∈ ps, ∀ a, p.Touches a → q.Touches a →
      p.value (fileOf s.2.disk) a = q.value (fileOf s.2.disk) a) :
    (ps.foldl (fun s p => loadProgram p s) s).2.disk = s.2.disk ∧
      (∀ p ∈ ps, ∀ a, p.Touches a →
        (ps.foldl (fun s p => loadProgram p s) s).1 a = p.value (fileOf s.2.disk) a) ∧
      ∀ a, (∀ p ∈ ps, ¬ p.Touches a) →
        (ps.foldl (fun s p => loadProgram p s) s).1 a = s.1 a := by
  induction ps generalizing s with
  | nil => exact ⟨rfl, fun p hp => absurd hp List.not_mem_nil, fun _ _ => rfl⟩
  | cons p ps ih =>
      rcases loadProgram_spec (s := s) (h p List.mem_cons_self) with ⟨hdisk, hin, hout⟩
      have hrest : ∀ q ∈ ps, q ∈ p :: ps := fun q hq => List.mem_cons_of_mem p hq
      rcases ih (s := loadProgram p s) (fun q hq => h q (hrest q hq)) (by
        rw [hdisk]
        exact fun q hq r hr => hagree q (hrest q hq) r (hrest r hr)) with ⟨hdisk', hin', hout'⟩
      rw [hdisk] at hdisk' hin'
      refine ⟨hdisk', fun q hq a ha => ?_, fun a ha => ?_⟩
      · by_cases hlater : ∃ r ∈ ps, r.Touches a
        · -- the last one to write there agrees
          rcases hlater with ⟨r, hr, hra⟩
          exact (hin' r hr a hra).trans (hagree r (hrest r hr) q hq a hra ha)
        · have hnone : ∀ r ∈ ps, ¬ r.Touches a := fun r hr hra => hlater ⟨r, hr, hra⟩
          rcases List.mem_cons.1 hq with rfl | hq
          · exact (hout' a hnone).trans (hin a ha)
          · exact absurd ha (hnone q hq)
      · exact (hout' a fun q hq => ha q (hrest q hq)).trans (hout a (ha p List.mem_cons_self))

end Sectors

/-! ## The header -/

section Header

variable {c : ElfClass} {s : Machine} {file : ℕ → UInt8}

/-- The header of the file is in memory. -/
def HeaderIn (file mem : ℕ → UInt8) : Prop := ∀ j < 4096, mem (ELF_ADDR + j) = file j

theorem HeaderIn.word_eq (h : HeaderIn file s.1) {j n : ℕ} (hj : j + n ≤ 4096) :
    leWord s.1 (ELF_ADDR + j) n = leWord file j n := by
  apply leWord_congr
  intro i hi
  rw [Nat.add_assoc]
  exact h (j + i) (by omega)

/-- A program header in memory is the one in the file. -/
theorem HeaderIn.phdr_eq (h : HeaderIn file s.1) (hc : c = elf64 ∨ c = elf32) {j : ℕ}
    (hj : j + c.phsize ≤ 4096) : c.phdr s.1 (ELF_ADDR + j) = c.phdr file j := by
  have hsize : c.offset + c.word ≤ c.phsize ∧ c.paddr + c.word ≤ c.phsize ∧
      c.filesz + c.word ≤ c.phsize ∧ c.memsz + c.word ≤ c.phsize := by
    rcases hc with rfl | rfl <;> decide
  unfold ElfClass.phdr
  simp only [Nat.add_assoc]
  rw [h.word_eq (by omega), h.word_eq (by omega), h.word_eq (by omega), h.word_eq (by omega)]

/-- Loading a segment leaves the header. -/
theorem HeaderIn.keep {p : Phdr} (h : HeaderIn file s.1) (hp : p.Loadable) :
    HeaderIn file (loadProgram p s).1 := by
  intro j hj
  rw [(loadProgram_spec hp).2.2, h j hj]
  intro ht
  have hlow := hp.low _ ht
  unfold BOOTREC_ADDR ELF_ADDR at hlow
  omega

/-- The loop loads the segments from the `i`-th on. -/
theorem loadElfLoop_eq (hc : c = elf64 ∨ c = elf32) {phoff i n : ℕ}
    (hn : i + n = leWord file c.phnum 2) (hph : phoff + (i + n) * c.phsize ≤ 4096)
    (h : HeaderIn file s.1)
    (hps : ∀ k < i + n, (c.phdr file (phoff + k * c.phsize)).Loadable) :
    loadElfLoop c ELF_ADDR (ELF_ADDR + (phoff + i * c.phsize)) i s =
      ((List.range' i n).map fun k => c.phdr file (phoff + k * c.phsize)).foldl
        (fun s p => loadProgram p s) s := by
  have hnum : ∀ t : Machine, HeaderIn file t.1 →
      leWord t.1 (ELF_ADDR + c.phnum) 2 = leWord file c.phnum 2 := by
    intro t ht
    refine ht.word_eq ?_
    rcases hc with rfl | rfl <;> decide
  induction n generalizing i s with
  | zero =>
      rw [loadElfLoop, hnum s h, if_neg (by omega)]
      rfl
  | succ n ih =>
      have hmul : (i + 1) * c.phsize ≤ (i + (n + 1)) * c.phsize :=
        Nat.mul_le_mul_right _ (by omega)
      rw [Nat.succ_mul] at hmul
      have hphdr : c.phdr s.1 (ELF_ADDR + (phoff + i * c.phsize)) =
          c.phdr file (phoff + i * c.phsize) := h.phdr_eq hc (by omega)
      rw [loadElfLoop, hnum s h, if_pos (by omega), hphdr, List.range'_succ, List.map_cons,
        List.foldl_cons, Nat.add_assoc ELF_ADDR, Nat.add_assoc phoff, ← Nat.succ_mul]
      have hrest : i + 1 + n = i + (n + 1) := by omega
      exact ih (hrest.trans hn) (by rw [hrest]; exact hph) (h.keep (hps i (by omega)))
        (by rw [hrest]; exact hps)

end Header

/-! ## The kernel -/

section Kernel

variable {s : Machine}

/-- The arguments and the header are brought into memory first. -/
theorem copyHeader_spec (s : Machine) :
    ((copyFromDisk ELF_ADDR 4096 0 (copyFromDisk MAINARG_ADDR 1024 (-1024) s)).1 =
      copyTo (fileOf s.2.disk) ELF_ADDR 0 4096
        (copyTo (fun j => s.2.disk (SECTSIZE + j)) MAINARG_ADDR 0 ARGSIZE s.1)) ∧
      (copyFromDisk ELF_ADDR 4096 0 (copyFromDisk MAINARG_ADDR 1024 (-1024) s)).2.disk =
        s.2.disk := by
  have hargs : copyFromDisk MAINARG_ADDR 1024 (-1024) s =
      copySectors (MAINARG_ADDR + 1024) MAINARG_ADDR 1 s := by
    rfl
  have hhead : ∀ t, copyFromDisk ELF_ADDR 4096 0 t =
      copySectors (ELF_ADDR + 4096) ELF_ADDR 3 t := by
    intro t
    rfl
  have h₁ : (copySectors (MAINARG_ADDR + 1024) MAINARG_ADDR 1 s).1 = _ ∧ _ :=
    copySectors_spec (n := 2) (by decide) (by decide)
  have h₂ : ∀ t, (copySectors (ELF_ADDR + 4096) ELF_ADDR 3 t).1 = _ ∧ _ := fun t =>
    copySectors_spec (n := 8) (by decide) (by decide)
  rw [hargs, hhead, (h₂ _).1, (h₂ _).2, h₁.1, h₁.2]
  refine ⟨?_, rfl⟩
  funext a
  rw [copyTo_apply, copyTo_apply, copyTo_apply, copyTo_apply]
  unfold fileOf ARGSIZE SECTSIZE
  simp only [Nat.zero_add, Nat.reduceMul, Nat.reduceAdd]

/-- In memory the class of the file and its entry point are the same. -/
theorem HeaderIn.jump {file : ℕ → UInt8} (h : HeaderIn file s.1) :
    (leWord s.1 (ELF_ADDR + 18) 2 = EM_X86_64 ↔ leWord file 18 2 = EM_X86_64) ∧
      (if leWord s.1 (ELF_ADDR + 18) 2 = EM_X86_64 then (leWord s.1 (ELF_ADDR + 24) 8 % 2 ^ 32, s)
        else (leWord s.1 (ELF_ADDR + 24) 4, s)) = (entryOf file, s) := by
  rw [h.word_eq (by decide), h.word_eq (by decide), h.word_eq (by decide), entryOf]
  refine ⟨Iff.rfl, ?_⟩
  split <;> rfl

/-- `load_elf64` or `load_elf32` loads the segments. -/
theorem loadElf_eq {file : ℕ → UInt8} (hl : Loadable file) (h : HeaderIn file s.1) :
    loadElf (classOf file) ELF_ADDR s = (segments file).foldl (fun s p => loadProgram p s) s := by
  have hc : classOf file = elf64 ∨ classOf file = elf32 := by
    unfold classOf
    split
    · exact Or.inl rfl
    · exact Or.inr rfl
  have hfield : (classOf file).phoff + (classOf file).word ≤ 4096 := by
    rcases hc with hc | hc <;> rw [hc] <;> decide
  have hoff := hl.headers
  have hph : (ELF_ADDR + leWord file (classOf file).phoff (classOf file).word) % 2 ^ 32 =
      ELF_ADDR + (leWord file (classOf file).phoff (classOf file).word +
        0 * (classOf file).phsize) := by
    rw [Nat.zero_mul, Nat.add_zero]
    refine Nat.mod_eq_of_lt ?_
    unfold ELF_ADDR
    omega
  rw [loadElf, h.word_eq hfield, hph]
  refine (loadElfLoop_eq hc (Nat.zero_add _) (by rw [Nat.zero_add]; exact hoff) h
    fun k hk => ?_).trans (by rw [← List.range_eq_range']; rfl)
  rw [Nat.zero_add] at hk
  exact hl.segment _ (List.mem_map.2 ⟨k, List.mem_range.2 hk, rfl⟩)

/-- What `load_kernel` has done on the first processor before it jumps. -/
theorem loadKernel_eq (hap : leWord s.1 (BOOTREC_ADDR + 4) 4 = 0)
    (hl : Loadable (fileOf s.2.disk)) :
    HeaderIn (fileOf s.2.disk) (loadKernel s).2.1 ∧
      (loadKernel s).1 = entryOf (fileOf s.2.disk) ∧
      (loadKernel s).2 = (segments (fileOf s.2.disk)).foldl (fun s p => loadProgram p s)
        (copyFromDisk ELF_ADDR 4096 0 (copyFromDisk MAINARG_ADDR 1024 (-1024) s)) := by
  rcases copyHeader_spec s with ⟨hmem, hdisk⟩
  have hhead : HeaderIn (fileOf s.2.disk)
      (copyFromDisk ELF_ADDR 4096 0 (copyFromDisk MAINARG_ADDR 1024 (-1024) s)).1 := by
    intro j hj
    rw [hmem, copyTo_apply, if_pos (by omega), Nat.add_sub_cancel_left, Nat.zero_add]
  generalize hs₁ : copyFromDisk ELF_ADDR 4096 0 (copyFromDisk MAINARG_ADDR 1024 (-1024) s) = s₁
    at hmem hdisk hhead
  rw [← hdisk] at hl
  rcases foldl_loadProgram (s := s₁) hl.segment hl.agree with ⟨-, -, hout⟩
  rw [hdisk] at hl hout
  have hkeep : HeaderIn (fileOf s.2.disk)
      ((segments (fileOf s.2.disk)).foldl (fun s p => loadProgram p s) s₁).1 := by
    intro j hj
    rw [hout, hhead j hj]
    intro p hp ht
    have hlow := (hl.segment p hp).low _ ht
    unfold BOOTREC_ADDR ELF_ADDR at hlow
    omega
  have hbranch : (if leWord s₁.1 (ELF_ADDR + 18) 2 = EM_X86_64 then loadElf64 ELF_ADDR s₁
      else loadElf32 ELF_ADDR s₁) =
      (segments (fileOf s.2.disk)).foldl (fun s p => loadProgram p s) s₁ := by
    rw [← loadElf_eq hl hhead]
    unfold classOf
    by_cases hc : leWord (fileOf s.2.disk) 18 2 = EM_X86_64
    · rw [if_pos hc, if_pos (hhead.jump.1.2 hc), loadElf64]
    · rw [if_neg hc, if_neg fun hc' => hc (hhead.jump.1.1 hc'), loadElf32]
  have hjump : loadKernel s = (entryOf (fileOf s.2.disk),
      (segments (fileOf s.2.disk)).foldl (fun s p => loadProgram p s) s₁) := by
    rw [loadKernel, if_pos hap]
    simp only
    rw [hs₁, hbranch]
    exact hkeep.jump.2
  rw [hjump]
  exact ⟨hkeep, rfl, rfl⟩

end Kernel

/-- On the first processor `load_kernel` loads a file that can be loaded, and jumps to its entry
point, as every other processor does, which loads nothing. -/
theorem loadKernel_loaded {s : Machine} (hap : leWord s.1 (BOOTREC_ADDR + 4) 4 = 0)
    (hl : Loadable (fileOf s.2.disk)) :
    Loaded s (loadKernel s).2 ∧ (loadKernel s).1 = entryOf (fileOf s.2.disk) ∧
      ∀ t : Machine, leWord t.1 (BOOTREC_ADDR + 4) 4 ≠ 0 →
        (∀ j < 4096, t.1 (ELF_ADDR + j) = (loadKernel s).2.1 (ELF_ADDR + j)) →
        loadKernel t = (entryOf (fileOf s.2.disk), t) := by
  rcases loadKernel_eq hap hl with ⟨hheader, hentry, hfold⟩
  rcases copyHeader_spec s with ⟨hmem, hdisk⟩
  generalize copyFromDisk ELF_ADDR 4096 0 (copyFromDisk MAINARG_ADDR 1024 (-1024) s) = s₁
    at hmem hdisk hfold
  have hall := hl
  rw [← hdisk] at hall
  rcases foldl_loadProgram (s := s₁) hall.segment hall.agree with ⟨hdisk', hin, hout⟩
  rw [hdisk, ← hfold] at hdisk' hin hout
  refine ⟨⟨fun p hp => ⟨fun j hj => ?_, fun j hj hj' => ?_⟩, fun j hj => ?_, hheader, ?_, hdisk'⟩,
    hentry, fun t ht hsame => ?_⟩
  · -- the bytes from the file
    have hcongr := (hl.segment p hp).congr
    have htouch : p.Touches (p.paddr + j) := by
      left
      unfold Phdr.sectors Phdr.lo SECTSIZE
      omega
    rw [hin p hp _ htouch, Phdr.value, if_neg (by omega)]
    refine congrArg (fileOf s.2.disk) ?_
    unfold Phdr.lo
    unfold SECTSIZE at hcongr ⊢
    omega
  · -- the zeros
    rw [hin p hp _ (Or.inr (by omega)), Phdr.value, if_pos (by omega)]
  · rw [hout _ fun p hp ht => ?_, hmem, copyTo_apply, if_neg, copyTo_apply, if_pos (by omega),
      Nat.add_sub_cancel_left, Nat.zero_add]
    · unfold ELF_ADDR MAINARG_ADDR
      omega
    · have hargs := (hl.segment p hp).args _ ht
      omega
  · intro a ha hargs hhead
    rw [hout a ha, hmem, copyTo_apply, if_neg hhead, copyTo_apply, if_neg hargs]
  · have hhead : HeaderIn (fileOf s.2.disk) t.1 := fun j hj =>
      (hsame j hj).trans (hheader j hj)
    rw [loadKernel, if_neg ht]
    exact hhead.jump.2

/-! ## A kernel of nine bytes -/

/-- Five bytes from the file and four more at `0x1000b0`. -/
def smallFile : ℕ → UInt8
  | 18 => 62
  | 24 => 0xb0
  | 26 => 0x10
  | 32 => 64
  | 56 => 1
  | 72 => 0xb0
  | 88 => 0xb0
  | 90 => 0x10
  | 96 => 5
  | 104 => 9
  | _ => 0

def smallMachine : Machine :=
  (fun _ => 0, ⟨0, 0, 0, 0, 0, none, 0, 0, 0, 3, fun n => n % 5, 0,
    fun a => smallFile (a - (SECTSIZE + ARGSIZE))⟩)

theorem fileOf_smallMachine : fileOf smallMachine.2.disk = smallFile := by
  funext j
  unfold fileOf smallMachine
  simp only [Nat.add_sub_cancel_left]

theorem smallFile_loadable : Loadable smallFile := by
  have hsegs : segments smallFile = [⟨5, 9, 0x1000b0, 0xb0⟩] := rfl
  have htouch : ∀ a, Phdr.Touches ⟨5, 9, 0x1000b0, 0xb0⟩ a → 0x100000 ≤ a := by
    intro a ha
    unfold Phdr.Touches Phdr.lo SECTSIZE at ha
    simp only at ha
    omega
  refine ⟨by decide, ?_, ?_⟩
  · intro p hp
    rw [hsegs] at hp
    obtain rfl := List.mem_singleton.1 hp
    refine ⟨by decide, by decide, by decide, by decide, fun a ha => ?_, fun a ha => ?_⟩
    · exact Or.inr (le_trans (by decide) (htouch a ha))
    · exact Or.inr (le_trans (by decide) (htouch a ha))
  · intro p hp q hq a _ _
    rw [hsegs] at hp hq
    rw [List.mem_singleton.1 hp, List.mem_singleton.1 hq]

theorem loadKernel_loaded_small : Loaded smallMachine (loadKernel smallMachine).2 ∧
    (loadKernel smallMachine).1 = 0x1000b0 := by
  have hloaded := loadKernel_loaded (s := smallMachine) rfl
    (fileOf_smallMachine.symm ▸ smallFile_loadable)
  rw [fileOf_smallMachine] at hloaded
  exact ⟨hloaded.1, hloaded.2.1⟩

end OsLab.Boot
