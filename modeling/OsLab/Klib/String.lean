import OsLab.Common
import OsLab.Lib.Copy

/-! # `memmove` of the C library of the kernel (`klib/src/string.c`)

The memory is a range of addresses with a byte each; an access outside is a
fault, and so is the overflow of the `int` index. The functions answer `none` for
a fault and for a failed assertion.

For `dst > src` the loop starts at the last byte, as it should, but then counts
up: it never comes back.
-/

namespace OsLab

open Copy

/-- Bytes at the addresses from `start` up to `stop`. -/
structure ByteMem where
  start : ℕ
  stop : ℕ
  byte : ℕ → UInt8

/-- The `n` bytes from `ptr` on are in the memory. -/
def ByteMem.Inside (m : ByteMem) (ptr n : ℕ) : Prop := m.start ≤ ptr ∧ ptr + n ≤ m.stop

instance (m : ByteMem) (ptr n : ℕ) : Decidable (m.Inside ptr n) :=
  inferInstanceAs (Decidable (_ ∧ _))

/-- `p_dst[i] = p_src[i]`. -/
def copyByte (dst src i : ℕ) (m : ByteMem) : Option ByteMem :=
  if m.Inside (dst + i) 1 ∧ m.Inside (src + i) 1 then
    some { m with byte := Function.update m.byte (dst + i) (m.byte (src + i)) }
  else none

/-- `for (int i = ..; i < n; ++i)`, with `k` rounds to go. -/
def moveForward (dst src : ℕ) : ℕ → ℕ → ByteMem → Option ByteMem
  | 0, _, m => some m
  | k + 1, i, m => (copyByte dst src i m).bind (moveForward dst src k (i + 1))

/-- `for (int i = ..; i >= 0; ++i)`, with `k` rounds to go until `++i` overflows. -/
def moveBackward (dst src : ℕ) : ℕ → ℕ → ByteMem → Option ByteMem
  | 0, _, _ => none
  | k + 1, i, m => (copyByte dst src i m).bind (moveBackward dst src k (i + 1))

/-- `memmove`: what it returns and the memory afterwards. -/
def memmove (dst src n : ℕ) (m : ByteMem) : Option (ℕ × ByteMem) :=
  if dst = 0 ∨ src = 0 then none
  else if dst > src then
    -- `int i = n - 1`, which is negative only for `n = 0`
    if n = 0 then some (dst, m)
    else (moveBackward dst src (2 ^ 31 - (n - 1)) (n - 1) m).map fun m => (dst, m)
  else (moveForward dst src n 0 m).map fun m => (dst, m)

/-- The memory `m'` is `m` with the bytes from `src` on copied to `dst`. -/
structure Moved (dst src n : ℕ) (m m' : ByteMem) : Prop where
  start : m'.start = m.start
  stop : m'.stop = m.stop
  copied : ∀ i < n, m'.byte (dst + i) = m.byte (src + i)
  frame : ∀ a, a < dst ∨ dst + n ≤ a → m'.byte a = m.byte a

/-- `memmove` comes back, with the bytes moved. -/
def MemmoveCorrect (dst src n : ℕ) (m : ByteMem) : Prop :=
  ∃ m', memmove dst src n m = some (dst, m') ∧ Moved dst src n m m'

/-! ## The two loops -/

theorem moveForward_eq {dst src k i : ℕ} {m : ByteMem} (hdst : m.Inside (dst + i) k)
    (hsrc : m.Inside (src + i) k) :
    moveForward dst src k i m =
      some { m with byte := copyUp (dst + i) (src + i) k m.byte } := by
  induction k generalizing i m with
  | zero => rfl
  | succ k ih =>
      unfold ByteMem.Inside at hdst hsrc
      have hcopy : copyByte dst src i m =
          some { m with byte := Function.update m.byte (dst + i) (m.byte (src + i)) } := by
        unfold copyByte ByteMem.Inside
        rw [if_pos (by omega)]
      rw [moveForward, hcopy, Option.bind_some, ih, copyUp_succ]
      · rfl
      · unfold ByteMem.Inside
        simp only
        omega
      · unfold ByteMem.Inside
        simp only
        omega

/-- The index only grows, so it stays nonnegative until it overflows. -/
theorem moveBackward_eq_none (dst src k i : ℕ) (m : ByteMem) :
    moveBackward dst src k i m = none := by
  induction k generalizing i m with
  | zero => rfl
  | succ k ih =>
      rw [moveBackward]
      cases copyByte dst src i m with
      | none => rfl
      | some m' => exact ih (i + 1) m'

theorem moved_copyUp {dst src : ℕ} (h : dst ≤ src) (n : ℕ) (m : ByteMem) :
    Moved dst src n m { m with byte := copyUp dst src n m.byte } := by
  constructor
  · rfl
  · rfl
  · intro i hi
    simp only
    rw [copyUp_apply h, if_pos (by omega), Nat.add_sub_cancel_left]
  · intro a ha
    simp only
    rw [copyUp_apply h, if_neg (by omega)]

/-! ## Arrays -/

section Arrays

variable {β : Type*}

/-- The elements of the array at `base`, where `read` makes an element out of its `w` bytes. -/
def arrayAt (read : (ℕ → UInt8) → β) (base w : ℕ) (byte : ℕ → UInt8) (i : ℕ) : β :=
  read fun j => byte (base + w * i + j)

/-- `memmove` of `n` elements inside an array of `size` elements. It comes back for a target not
above the source; `none` also stands for an access past the end. -/
def moveCells (size dst src n : ℕ) (m : ℕ → β) : Option (ℕ → β) :=
  if dst ≤ src ∧ src + n ≤ size then some (copyUp dst src n m) else none

/-- On the bytes, `memmove` does what `moveCells` does on the elements. -/
theorem memmove_array {read : (ℕ → UInt8) → β} {base w size dst src n : ℕ} {m : ByteMem}
    {cells : ℕ → β} (hread : ∀ f g, (∀ j < w, f j = g j) → read f = read g) (hbase : base ≠ 0)
    (hin : m.Inside base (w * size))
    (hmove : moveCells size dst src n (arrayAt read base w m.byte) = some cells) :
    ∃ m', memmove (base + w * dst) (base + w * src) (w * n) m = some (base + w * dst, m') ∧
      arrayAt read base w m'.byte = cells := by
  unfold moveCells at hmove
  split at hmove
  · rename_i hbound
    rcases hbound with ⟨hle, hsize⟩
    obtain rfl := Option.some.inj hmove
    have hdst : w * dst ≤ w * src := Nat.mul_le_mul_left w hle
    have hlen : w * src + w * n ≤ w * size := by
      rw [← Nat.mul_add]
      exact Nat.mul_le_mul_left w hsize
    rcases hin with ⟨hstart, hstop⟩
    refine ⟨{ m with byte := copyUp (base + w * dst) (base + w * src) (w * n) m.byte }, ?_, ?_⟩
    · unfold memmove
      rw [if_neg (by omega), if_neg (by omega), moveForward_eq]
      · rfl
      · constructor <;> omega
      · constructor <;> omega
    · funext i
      rw [copyUp_apply hle]
      by_cases hi : dst ≤ i ∧ i < dst + n
      · rw [if_pos hi]
        apply hread
        intro j hj
        -- byte `j` of element `i` is one of those moved
        have hlow : w * dst ≤ w * i := Nat.mul_le_mul_left w hi.1
        have hhigh : w * (i + 1) ≤ w * (dst + n) := Nat.mul_le_mul_left w hi.2
        have hshift : w * (src + (i - dst)) + w * dst = w * src + w * i := by
          rw [← Nat.mul_add, ← Nat.mul_add]
          congr 1
          omega
        rw [Nat.mul_succ, Nat.mul_add] at hhigh
        simp only
        rw [copyUp_apply (by omega), if_pos (by omega)]
        congr 1
        omega
      · rw [if_neg hi]
        apply hread
        intro j hj
        simp only
        rw [copyUp_apply (by omega), if_neg]
        intro hin
        rcases Nat.lt_or_ge i dst with hlt | hge
        · have hbelow : w * (i + 1) ≤ w * dst := Nat.mul_le_mul_left w hlt
          rw [Nat.mul_succ] at hbelow
          omega
        · have habove : w * (dst + n) ≤ w * i := Nat.mul_le_mul_left w (by omega)
          rw [Nat.mul_add] at habove
          omega
  · cases hmove

end Arrays

/-! ## When `memmove` is correct -/

/-- `memmove` is correct exactly if the target does not lie above the source, or there is nothing to
move. -/
theorem memmoveCorrect_iff {dst src n : ℕ} {m : ByteMem} (hdst : dst ≠ 0) (hsrc : src ≠ 0)
    (hn : n < 2 ^ 31) (hin : m.Inside dst n) (hin' : m.Inside src n) :
    MemmoveCorrect dst src n m ↔ dst ≤ src ∨ n = 0 := by
  have hnull : ¬ (dst = 0 ∨ src = 0) := by
    rintro (h | h)
    · exact hdst h
    · exact hsrc h
  unfold MemmoveCorrect memmove
  rw [if_neg hnull]
  constructor
  · rintro ⟨m', hm', -⟩
    by_contra hcon
    rw [if_pos (by omega), if_neg (by omega), moveBackward_eq_none] at hm'
    cases hm'
  · intro h
    by_cases hlt : dst > src
    · obtain rfl : n = 0 := by omega
      rw [if_pos hlt, if_pos rfl]
      refine ⟨m, rfl, rfl, rfl, ?_, fun _ _ => rfl⟩
      intro i hi
      omega
    · rw [if_neg hlt, moveForward_eq hin hin']
      exact ⟨_, rfl, moved_copyUp (by omega) n m⟩

/-- Two bytes, moved down by one. -/
theorem memmoveCorrect_down : MemmoveCorrect 1 2 2 ⟨1, 4, fun a => UInt8.ofNat a⟩ := by
  apply (memmoveCorrect_iff ..).2
  · exact Or.inl (by decide)
  · decide
  · decide
  · decide
  · exact ⟨by decide, by decide⟩
  · exact ⟨by decide, by decide⟩

/-- One byte, moved up by one. -/
theorem not_memmoveCorrect : ¬ ∀ dst src n m, dst ≠ 0 → src ≠ 0 → n < 2 ^ 31 →
    ByteMem.Inside m dst n → ByteMem.Inside m src n → MemmoveCorrect dst src n m := by
  intro h
  obtain ⟨m', hm', -⟩ := h 2 1 1 ⟨1, 4, fun a => UInt8.ofNat a⟩ (by decide) (by decide)
    (by decide) ⟨by decide, by decide⟩ ⟨by decide, by decide⟩
  simp [memmove, moveBackward_eq_none] at hm'

end OsLab
