import OsLab.Lib.Words

/-! # The processors of the machine (`__am_lapic_init` in `trm.c`)

The firmware leaves a descriptor in the memory, at an address of its choice, that points to the
configuration table. The header of the table is followed by its entries, of 20 bytes for a processor
and of 8 bytes for everything else. `__am_lapic_init` looks for the signature of the descriptor at
each address, and counts the processors in the table.

The table is left alone by everybody, so a second look at a byte of it finds the same.
-/

namespace OsLab.Mp

open Words

def MAX_CPU : ℕ := 8

/-- The bytes "_MP_". -/
def MAGIC : ℕ := 0x5f504d5f

/-- `sizeof(MPConf)`. -/
def CONF_SIZE : ℕ := 44

/-- The loop over the entries, from `ptr` to the end of the table; `none` is the panic. -/
def countCpus (mem : ℕ → UInt8) (stop ptr ncpu : ℕ) : Option ℕ :=
  if ptr < stop then
    if mem ptr = 0 then
      if MAX_CPU < ncpu + 1 then none else countCpus mem stop (ptr + 12 + 8) (ncpu + 1)
    else countCpus mem stop (ptr + 8) ncpu
  else some ncpu
termination_by stop - ptr

/-- The loop over the addresses: the first one with the signature. -/
def findDesc (mem : ℕ → UInt8) (stop st : ℕ) : Option ℕ :=
  if st < stop then
    if leWord mem st 4 = MAGIC then some st else findDesc mem stop (st + 1)
  else none
termination_by stop - st

/-- `__am_lapic_init`: `__am_lapic` and `__am_ncpu`. -/
def lapicInit (mem : ℕ → UInt8) : Option (ℕ × ℕ) :=
  (findDesc mem 0xffffff 0xf0000).bind fun st =>
    let conf := leWord mem (st + 4) 4
    let lapic := leWord mem (conf + 36) 4
    (countCpus mem (conf + leWord mem (conf + 4) 2) (conf + CONF_SIZE) 0).map fun ncpu =>
      (lapic, ncpu)

/-! ## The table -/

/-- An entry of the table. Type 0 is a processor; nobody looks whether it is marked as usable. -/
structure Entry where
  type : UInt8
  rest : List UInt8
  length_rest : rest.length = if type = 0 then 19 else 7

namespace Entry

def bytes (e : Entry) : List UInt8 := e.type :: e.rest

def isProcessor (e : Entry) : Bool := e.type = 0

theorem length_bytes (e : Entry) : e.bytes.length = if e.type = 0 then 20 else 8 := by
  rw [bytes, List.length_cons, e.length_rest]
  split <;> rfl

end Entry

/-- The bytes of the list are in memory from `p` on. -/
def HoldsAt (mem : ℕ → UInt8) (p : ℕ) : List UInt8 → Prop
  | [] => True
  | b :: l => mem p = b ∧ HoldsAt mem (p + 1) l

/-- A memory with a configuration table: where the descriptor is, where the table is, and its
entries. -/
structure HasTable (mem : ℕ → UInt8) (st conf : ℕ) (table : List Entry) : Prop where
  desc : 0xf0000 ≤ st ∧ st < 0xffffff
  magic : leWord mem st 4 = MAGIC
  first : ∀ a, 0xf0000 ≤ a → a < st → leWord mem a 4 ≠ MAGIC
  pointer : leWord mem (st + 4) 4 = conf
  length : leWord mem (conf + 4) 2 = CONF_SIZE + (table.flatMap Entry.bytes).length
  entries : HoldsAt mem (conf + CONF_SIZE) (table.flatMap Entry.bytes)

theorem holdsAt_append {mem : ℕ → UInt8} {p : ℕ} {l l' : List UInt8} :
    HoldsAt mem p (l ++ l') ↔ HoldsAt mem p l ∧ HoldsAt mem (p + l.length) l' := by
  induction l generalizing p with
  | nil => simp [HoldsAt]
  | cons b l ih =>
      rw [List.cons_append, HoldsAt, HoldsAt, ih, List.length_cons, and_assoc,
        Nat.add_right_comm, Nat.add_assoc]

/-- The search ends at the first address with the signature. -/
theorem findDesc_eq {mem : ℕ → UInt8} {stop st : ℕ} (hmagic : leWord mem st 4 = MAGIC)
    (hst : st < stop) (k : ℕ) (hk : k ≤ st)
    (hfirst : ∀ a, k ≤ a → a < st → leWord mem a 4 ≠ MAGIC) :
    findDesc mem stop k = some st := by
  induction hd : st - k generalizing k with
  | zero =>
      obtain rfl : k = st := by omega
      rw [findDesc, if_pos hst, if_pos hmagic]
  | succ d ih =>
      have hlt : k < st := by omega
      rw [findDesc, if_pos (hlt.trans hst), if_neg (hfirst k le_rfl hlt)]
      exact ih (k + 1) hlt (fun a ha => hfirst a (Nat.le_of_succ_le ha)) (by omega)

/-- The loop steps from entry to entry. -/
theorem countCpus_eq {mem : ℕ → UInt8} (table : List Entry) (ptr ncpu : ℕ) (hncpu : ncpu ≤ MAX_CPU)
    (h : HoldsAt mem ptr (table.flatMap Entry.bytes)) :
    countCpus mem (ptr + (table.flatMap Entry.bytes).length) ptr ncpu =
      if ncpu + table.countP Entry.isProcessor ≤ MAX_CPU then
        some (ncpu + table.countP Entry.isProcessor)
      else none := by
  induction table generalizing ptr ncpu with
  | nil =>
      rw [countCpus]
      simp [hncpu]
  | cons e table ih =>
      rw [List.flatMap_cons, holdsAt_append, Entry.length_bytes] at h
      rw [List.flatMap_cons, List.length_append, Entry.length_bytes, List.countP_cons]
      obtain ⟨⟨htype, -⟩, hrest⟩ := h
      rw [countCpus, htype]
      by_cases hp : e.type = 0
      · -- a processor: with more than `MAX_CPU` of them the panic comes here
        have hproc : e.isProcessor = true := by simp [Entry.isProcessor, hp]
        rw [if_pos hp] at hrest ⊢
        rw [if_pos (by omega), if_pos hp, if_pos hproc]
        by_cases hmax : MAX_CPU < ncpu + 1
        · rw [if_pos hmax, if_neg (by omega)]
        · have := ih (ptr + 20) (ncpu + 1) (Nat.le_of_not_lt hmax) hrest
          rw [if_neg hmax, ← Nat.add_assoc, ← Nat.add_assoc, Nat.add_right_comm ncpu]
          exact this
      · -- anything else is stepped over
        have hproc : e.isProcessor = false := by simp [Entry.isProcessor, hp]
        rw [if_neg hp] at hrest ⊢
        rw [if_pos (by omega), if_neg hp, hproc, if_neg Bool.false_ne_true, Nat.add_zero,
          ← Nat.add_assoc]
        exact ih (ptr + 8) ncpu hncpu hrest

/-- For every table the processors in it are counted, unless there are more than `MAX_CPU`. -/
theorem lapicInit_exact {mem : ℕ → UInt8} {st conf : ℕ} {table : List Entry}
    (h : HasTable mem st conf table) :
    lapicInit mem =
      if table.countP Entry.isProcessor ≤ MAX_CPU then
        some (leWord mem (conf + 36) 4, table.countP Entry.isProcessor)
      else none := by
  have hcount := countCpus_eq table (conf + CONF_SIZE) 0 (Nat.zero_le _) h.entries
  rw [lapicInit, findDesc_eq h.magic h.desc.2 _ h.desc.1 h.first]
  simp only [Option.bind_some]
  rw [h.pointer, h.length, ← Nat.add_assoc, hcount, Nat.zero_add]
  split <;> rfl

/-! Two processors and a bus. -/

def firmwareBytes : List UInt8 :=
  [0x5f, 0x4d, 0x50, 0x5f, 0x10, 0, 0xf, 0] ++ List.replicate 8 0 ++
  ([0x50, 0x43, 0x4d, 0x50, 92, 0] ++ List.replicate 30 0 ++ [0, 0, 0xe0, 0xfe] ++
    List.replicate 4 0) ++
  (0 :: List.replicate 19 0 ++ (0 :: List.replicate 19 1) ++ 1 :: List.replicate 7 2)

def firmware (a : ℕ) : UInt8 := firmwareBytes.getD (a - 0xf0000) 0

def twoCpus : List Entry :=
  [⟨0, List.replicate 19 0, rfl⟩, ⟨0, List.replicate 19 1, rfl⟩, ⟨1, List.replicate 7 2, rfl⟩]

theorem hasTable_firmware : HasTable firmware 0xf0000 0xf0010 twoCpus where
  desc := by decide
  magic := by decide
  first a hlo hhi := absurd hlo (Nat.not_le.2 hhi)
  pointer := by decide
  length := by decide
  entries := by simp [twoCpus, Entry.bytes, HoldsAt, firmware, firmwareBytes, CONF_SIZE]

theorem lapicInit_firmware : lapicInit firmware = some (0xfee00000, 2) := by
  rw [lapicInit_exact hasTable_firmware]
  decide

end OsLab.Mp
