import OsLab.Klib.String

/-! # Traced memory and `strlen` of the C library of the kernel (`klib/src/string.c`)

A byte memory together with the addresses read and written so far. The functions
answer `none` for an access outside and for a failed assertion. `NULL` is the
address 0.
-/

namespace OsLab

/-- The memory and the addresses accessed, the last one last. -/
structure TraceMem where
  mem : ByteMem
  reads : List ℕ
  writes : List ℕ

/-- Nothing accessed yet. -/
def ByteMem.traced (m : ByteMem) : TraceMem := ⟨m, [], []⟩

/-- `*p`. -/
def TraceMem.load (a : ℕ) (t : TraceMem) : Option (UInt8 × TraceMem) :=
  if t.mem.Inside a 1 then some (t.mem.byte a, { t with reads := t.reads ++ [a] }) else none

/-- `*p = b`. -/
def TraceMem.store (a : ℕ) (b : UInt8) (t : TraceMem) : Option TraceMem :=
  if t.mem.Inside a 1 then
    some { t with
      mem := { t.mem with byte := Function.update t.mem.byte a b }
      writes := t.writes ++ [a] }
  else none

/-- The loop of `strlen`, with `left` addresses up to the end of the memory. -/
def strlenFrom : ℕ → ℕ → ℕ → TraceMem → Option (ℕ × TraceMem)
  | 0, _, _, _ => none
  | left + 1, p, len, t => (t.load p).bind fun r =>
      if r.1 = 0 then some (len, r.2) else strlenFrom left (p + 1) (len + 1) r.2

/-- `strlen`. -/
def strlen (s : ℕ) (t : TraceMem) : Option (ℕ × TraceMem) :=
  if s = 0 then none else strlenFrom (t.mem.stop - s) s 0 t

/-- The bytes `x` lie in the memory from `p` on. -/
def ByteMem.Holds (m : ByteMem) : ℕ → List UInt8 → Prop
  | _, [] => True
  | p, b :: x => m.Inside p 1 ∧ m.byte p = b ∧ m.Holds (p + 1) x

instance ByteMem.decidableHolds (m : ByteMem) : ∀ p x, Decidable (m.Holds p x)
  | _, [] => .isTrue trivial
  | p, _ :: x =>
      have := decidableHolds m (p + 1) x
      inferInstanceAs (Decidable (_ ∧ _ ∧ _))

/-- The same memory with more addresses read. -/
def TraceMem.noteReads (t : TraceMem) (l : List ℕ) : TraceMem := { t with reads := t.reads ++ l }

@[simp] theorem TraceMem.noteReads_mem (t : TraceMem) (l : List ℕ) :
    (t.noteReads l).mem = t.mem := rfl

@[simp] theorem TraceMem.noteReads_reads (t : TraceMem) (l : List ℕ) :
    (t.noteReads l).reads = t.reads ++ l := rfl

@[simp] theorem TraceMem.noteReads_writes (t : TraceMem) (l : List ℕ) :
    (t.noteReads l).writes = t.writes := rfl

@[simp] theorem ByteMem.traced_mem (m : ByteMem) : m.traced.mem = m := rfl

@[simp] theorem ByteMem.traced_reads (m : ByteMem) : m.traced.reads = [] := rfl

@[simp] theorem ByteMem.traced_writes (m : ByteMem) : m.traced.writes = [] := rfl

theorem TraceMem.noteReads_nil (t : TraceMem) : t.noteReads [] = t := by
  unfold noteReads
  rw [List.append_nil]

theorem TraceMem.noteReads_noteReads (t : TraceMem) (l l' : List ℕ) :
    (t.noteReads l).noteReads l' = t.noteReads (l ++ l') := by
  unfold noteReads
  simp only [List.append_assoc]

theorem TraceMem.load_inside {a : ℕ} {t : TraceMem} (h : t.mem.Inside a 1) :
    t.load a = some (t.mem.byte a, t.noteReads [a]) := by
  rw [load, if_pos h]
  rfl

theorem TraceMem.load_some {a : ℕ} {t : TraceMem} {r : UInt8 × TraceMem}
    (h : t.load a = some r) : t.mem.Inside a 1 ∧ r = (t.mem.byte a, t.noteReads [a]) := by
  unfold load at h
  split at h
  · rename_i hin
    exact ⟨hin, (Option.some.inj h).symm⟩
  · cases h

/-! ## Strings in memory -/

section Holds

variable {m : ByteMem} {p : ℕ}

theorem ByteMem.holds_append {x y : List UInt8} :
    m.Holds p (x ++ y) ↔ m.Holds p x ∧ m.Holds (p + x.length) y := by
  induction x generalizing p with
  | nil =>
      rw [List.nil_append, List.length_nil, Nat.add_zero]
      exact (and_iff_right trivial).symm
  | cons b x ih =>
      have hlen : p + (b :: x).length = p + 1 + x.length := by
        rw [List.length_cons]
        omega
      rw [List.cons_append, Holds, Holds, ih, hlen]
      tauto

theorem ByteMem.holds_take {x : List UInt8} (h : m.Holds p x) (n : ℕ) : m.Holds p (x.take n) := by
  rw [← List.take_append_drop n x, holds_append] at h
  exact h.1

/-- Byte by byte. -/
theorem ByteMem.holds_iff {x : List UInt8} :
    m.Holds p x ↔ ∀ i (h : i < x.length), m.Inside (p + i) 1 ∧ m.byte (p + i) = x[i] := by
  induction x generalizing p with
  | nil => exact iff_of_true trivial fun i h => absurd h (Nat.not_lt_zero i)
  | cons b x ih =>
      rw [Holds, ih]
      constructor
      · rintro ⟨hin, hb, hx⟩ i hi
        cases i with
        | zero => exact ⟨hin, hb⟩
        | succ i =>
            have := hx i (Nat.lt_of_succ_lt_succ hi)
            rw [Nat.add_assoc, Nat.add_comm 1 i] at this
            exact this
      · intro h
        refine ⟨(h 0 (Nat.succ_pos _)).1, (h 0 (Nat.succ_pos _)).2, ?_⟩
        intro i hi
        have := h (i + 1) (Nat.succ_lt_succ hi)
        rw [Nat.add_assoc, Nat.add_comm 1 i]
        exact this

theorem ByteMem.Holds.inside {x : List UInt8} (h : m.Holds p x) (hx : x ≠ []) :
    m.Inside p x.length := by
  induction x generalizing p with
  | nil => exact absurd rfl hx
  | cons b x ih =>
      rcases h with ⟨hin, -, hrest⟩
      cases x with
      | nil => exact hin
      | cons c x =>
          have := ih hrest (List.cons_ne_nil c x)
          unfold Inside at this hin ⊢
          rw [List.length_cons]
          omega

/-- The bytes `s` and their NUL. -/
theorem length_append_nul (s : List UInt8) : (s ++ [0]).length = s.length + 1 := by
  rw [List.length_append, List.length_singleton]

theorem ByteMem.Holds.inside_append_nul {s : List UInt8} (h : m.Holds p (s ++ [0])) :
    m.start ≤ p ∧ p + s.length + 1 ≤ m.stop := by
  have hin := h.inside (List.append_ne_nil_of_right_ne_nil _ (List.cons_ne_nil _ _))
  unfold Inside at hin
  rw [length_append_nul] at hin
  omega

/-- The bytes are the same in a memory that agrees on their addresses. -/
theorem ByteMem.Holds.congr {m' : ByteMem} {x : List UInt8} (h : m.Holds p x)
    (hstart : m'.start = m.start) (hstop : m'.stop = m.stop)
    (hbyte : ∀ a, p ≤ a → a < p + x.length → m'.byte a = m.byte a) : m'.Holds p x := by
  rw [holds_iff] at h ⊢
  intro i hi
  rcases h i hi with ⟨hin, hb⟩
  refine ⟨?_, ?_⟩
  · unfold Inside at hin ⊢
    rw [hstart, hstop]
    exact hin
  · rw [hbyte (p + i) (by omega) (by omega), hb]

end Holds

theorem strlenFrom_eq {s : List UInt8} {p left len : ℕ} {t : TraceMem} (hs : 0 ∉ s)
    (h : t.mem.Holds p (s ++ [0])) (hleft : s.length < left) :
    strlenFrom left p len t =
      some (len + s.length, t.noteReads (List.range' p (s.length + 1))) := by
  induction s generalizing p left len t with
  | nil =>
      rcases h with ⟨hin, hb, -⟩
      cases left with
      | zero => exact absurd hleft (Nat.not_lt_zero _)
      | succ left =>
          rw [strlenFrom, TraceMem.load_inside hin, Option.bind_some, if_pos hb]
          rfl
  | cons a s ih =>
      rcases h with ⟨hin, hb, hrest⟩
      have ha : t.mem.byte p ≠ 0 := by
        rw [hb]
        rintro rfl
        exact hs List.mem_cons_self
      cases left with
      | zero => exact absurd hleft (Nat.not_lt_zero _)
      | succ left =>
          have hrec := @ih (p + 1) left (len + 1) (t.noteReads [p])
            (fun h => hs (List.mem_cons_of_mem _ h)) hrest (Nat.lt_of_succ_lt_succ hleft)
          rw [strlenFrom, TraceMem.load_inside hin, Option.bind_some, if_neg ha, hrec,
            TraceMem.noteReads_noteReads, List.length_cons, Nat.add_right_comm]
          rfl

/-- `strlen` of a string reads up to its NUL. -/
theorem strlen_eq {s : List UInt8} {p : ℕ} {t : TraceMem} (hp : p ≠ 0) (hs : 0 ∉ s)
    (h : t.mem.Holds p (s ++ [0])) :
    strlen p t = some (s.length, t.noteReads (List.range' p (s.length + 1))) := by
  have hin := h.inside_append_nul
  rw [strlen, if_neg hp, strlenFrom_eq hs h (by omega), Nat.zero_add]

/-! ## Storing -/

/-- The memory with the bytes `x` from `dst` on. -/
def ByteMem.put (m : ByteMem) : ℕ → List UInt8 → ByteMem
  | _, [] => m
  | dst, b :: x => ByteMem.put { m with byte := Function.update m.byte dst b } (dst + 1) x

@[simp] theorem ByteMem.put_start (m : ByteMem) (dst : ℕ) (x : List UInt8) :
    (m.put dst x).start = m.start := by
  induction x generalizing m dst with
  | nil => rfl
  | cons b x ih => rw [put, ih]

@[simp] theorem ByteMem.put_stop (m : ByteMem) (dst : ℕ) (x : List UInt8) :
    (m.put dst x).stop = m.stop := by
  induction x generalizing m dst with
  | nil => rfl
  | cons b x ih => rw [put, ih]

theorem ByteMem.put_inside {m : ByteMem} {dst p n : ℕ} {x : List UInt8} :
    (m.put dst x).Inside p n ↔ m.Inside p n := by
  unfold Inside
  rw [put_start, put_stop]

theorem ByteMem.put_frame {m : ByteMem} {dst a : ℕ} {x : List UInt8}
    (h : a < dst ∨ dst + x.length ≤ a) : (m.put dst x).byte a = m.byte a := by
  induction x generalizing m dst with
  | nil => rfl
  | cons b x ih =>
      rw [List.length_cons] at h
      rw [put, ih (by omega)]
      exact Function.update_of_ne (by omega) _ _

theorem ByteMem.put_byte {m : ByteMem} {dst i : ℕ} {x : List UInt8} (h : i < x.length) :
    (m.put dst x).byte (dst + i) = x[i] := by
  induction x generalizing m dst i with
  | nil => exact absurd h (Nat.not_lt_zero i)
  | cons b x ih =>
      cases i with
      | zero =>
          rw [put, put_frame (by omega)]
          exact Function.update_self ..
      | succ i =>
          rw [put, show dst + (i + 1) = dst + 1 + i by omega, ih (Nat.lt_of_succ_lt_succ h)]
          rfl

theorem ByteMem.put_append (m : ByteMem) (dst : ℕ) (x y : List UInt8) :
    (m.put dst x).put (dst + x.length) y = m.put dst (x ++ y) := by
  induction x generalizing m dst with
  | nil => rfl
  | cons b x ih =>
      rw [List.cons_append, put, put, ← ih, List.length_cons, Nat.add_assoc,
        Nat.add_comm x.length]

/-- What was stored can be read back. -/
theorem ByteMem.holds_put {m : ByteMem} {dst : ℕ} {x : List UInt8}
    (hin : ∀ i < x.length, m.Inside (dst + i) 1) : (m.put dst x).Holds dst x := by
  rw [holds_iff]
  intro i hi
  exact ⟨put_inside.2 (hin i hi), put_byte hi⟩

theorem TraceMem.store_inside {a : ℕ} {b : UInt8} {t : TraceMem} (h : t.mem.Inside a 1) :
    t.store a b = some ⟨t.mem.put a [b], t.reads, t.writes ++ [a]⟩ := by
  rw [store, if_pos h]
  rfl

theorem TraceMem.store_some {a : ℕ} {b : UInt8} {t t' : TraceMem} (h : t.store a b = some t') :
    t.mem.Inside a 1 ∧ t' = ⟨t.mem.put a [b], t.reads, t.writes ++ [a]⟩ := by
  unfold store at h
  split at h
  · rename_i hin
    exact ⟨hin, (Option.some.inj h).symm⟩
  · cases h

end OsLab
