import OsLab.Klib.Sprintf
import OsLab.Klib.Strncpy

/-! # `snprintf` of the C library of the kernel (`klib/src/stdio.c`)

The text is formatted into the static buffer `pbuf` and copied from there. What
`vsprintf` returns counts the NUL, `strncpy` stores one byte more than it is
asked for, and then a terminator is stored behind the bytes that were copied: so
`snprintf` needs one byte more than the text and its NUL take.
-/

namespace OsLab

/-- `PBUF_MAX_SIZE`. -/
def pbufMaxSize : ℕ := 1024

/-- The stores of `vsprintf` at `out[next++]`. -/
def storeList : ℕ → List UInt8 → TraceMem → Option TraceMem
  | _, [], t => some t
  | p, b :: x, t => (t.store p b).bind fun t' => storeList (p + 1) x t'

/-- `snprintf`, with its arguments in `args` and `pbuf` at that address. The format and the strings
of its arguments do not lie in `pbuf`. -/
def snprintf (pbuf out n : ℕ) (fmt : List UInt8) (args : List UInt64) (s : ByteMem)
    (t : TraceMem) : Option (ℕ × TraceMem) :=
  (vsprintf t.mem fmt args s).bind fun r => (storeList pbuf r.2 t).bind fun t' =>
    let ret := if r.1 > n then n else r.1
    if ret < pbufMaxSize then
      (strncpy out pbuf ret t').bind fun r => (r.2.store (out + ret) 0).map fun t' => (ret, t')
    else none

/-- `snprintf` writes to the `n` bytes at `out` only, apart from the text and its NUL in `pbuf`; and
there it leaves as much of the text as fits before a NUL. -/
def SnprintfCorrect (m : ByteMem) (pbuf out n : ℕ) (fmt : List UInt8) (args : List UInt64)
    (s : ByteMem) (text : List UInt8) : Prop :=
  ∃ ret m' w, snprintf pbuf out n fmt args s m.traced = some (ret, m') ∧
    m'.writes = List.range' pbuf (text.length + 1) ++ w ∧ (∀ a ∈ w, out ≤ a ∧ a < out + n) ∧
    m'.mem.Holds out (text.take (n - 1) ++ [0])

theorem storeList_eq {x : List UInt8} {p : ℕ} {t : TraceMem}
    (hin : ∀ i < x.length, t.mem.Inside (p + i) 1) :
    storeList p x t = some ⟨t.mem.put p x, t.reads, t.writes ++ List.range' p x.length⟩ := by
  induction x generalizing p t with
  | nil =>
      rw [List.length_nil, List.range'_zero, List.append_nil]
      rfl
  | cons b x ih =>
      rw [List.length_cons] at hin
      have hp : t.mem.Inside p 1 := hin 0 (by omega)
      rw [storeList, TraceMem.store_inside hp, Option.bind_some]
      refine (ih ?_).trans ?_
      · intro i hi
        have := hin (i + 1) (by omega)
        rw [ByteMem.put_inside, Nat.add_assoc, Nat.add_comm 1]
        exact this
      · rw [List.append_assoc]
        rfl

/-- The memory with the text and its NUL in `pbuf`. -/
def formatted (m : ByteMem) (pbuf : ℕ) (text : List UInt8) : TraceMem where
  mem := m.put pbuf (text ++ [0])
  reads := []
  writes := List.range' pbuf (text.length + 1)

/-- What `snprintf` does after `vsprintf`. -/
theorem snprintf_eq {m s : ByteMem} {pbuf out n : ℕ} {fmt text : List UInt8}
    {args : List UInt64} (htext : vsprintf m fmt args s = some (text.length + 1, text ++ [0]))
    (hpbuf : ∀ i ≤ text.length, m.Inside (pbuf + i) 1) :
    snprintf pbuf out n fmt args s m.traced =
      if min n (text.length + 1) < pbufMaxSize then
        (strncpy out pbuf (min n (text.length + 1)) (formatted m pbuf text)).bind fun r =>
          (r.2.store (out + min n (text.length + 1)) 0).map fun t' =>
            (min n (text.length + 1), t')
      else none := by
  have hlen := length_append_nul text
  have hmin : (if text.length + 1 > n then n else text.length + 1) = min n (text.length + 1) := by
    split <;> omega
  have hstore : storeList pbuf (text ++ [0]) m.traced = some (formatted m pbuf text) := by
    rw [storeList_eq fun i hi => hpbuf i (by omega), hlen]
    rfl
  rw [snprintf, ByteMem.traced_mem, htext, Option.bind_some, hstore, Option.bind_some]
  simp only [hmin]

/-- What `snprintf` writes, if it comes back. -/
theorem snprintf_writes {m s : ByteMem} {pbuf out n ret : ℕ} {fmt text : List UInt8}
    {args : List UInt64} {m' : TraceMem}
    (htext : vsprintf m fmt args s = some (text.length + 1, text ++ [0]))
    (hpbuf : ∀ i ≤ text.length, m.Inside (pbuf + i) 1)
    (h : snprintf pbuf out n fmt args s m.traced = some (ret, m')) :
    min n (text.length + 1) < pbufMaxSize ∧
      m'.writes = List.range' pbuf (text.length + 1) ++
        List.range' out (min n (text.length + 1)) ++ [out + min n (text.length + 1)] ++
          [out + min n (text.length + 1)] := by
  rw [snprintf_eq htext hpbuf] at h
  split at h
  · rename_i hlt
    rw [Option.bind_eq_some_iff] at h
    rcases h with ⟨r, hcopy, h⟩
    rw [Option.map_eq_some_iff] at h
    rcases h with ⟨t', hterm, heq⟩
    cases heq
    obtain ⟨-, rfl⟩ := TraceMem.store_some hterm
    rcases strncpy_some hcopy with ⟨-, -, -, hwrites⟩
    refine ⟨hlt, ?_⟩
    simp only [hwrites]
    rfl
  · cases h

/-- A text that leaves one byte of the buffer over is stored as it should be. -/
theorem snprintfCorrect {m s : ByteMem} {pbuf out n : ℕ} {fmt text : List UInt8}
    {args : List UInt64} (hpbuf0 : pbuf ≠ 0) (hout0 : out ≠ 0)
    (htext : vsprintf m fmt args s = some (text.length + 1, text ++ [0]))
    (hpbuf : ∀ i < pbufMaxSize, m.Inside (pbuf + i) 1) (hout : ∀ i < n, m.Inside (out + i) 1)
    (hne : ∀ i < n, ∀ j < pbufMaxSize, out + i ≠ pbuf + j) (hn : text.length + 2 ≤ n)
    (hlt : text.length + 1 < pbufMaxSize) :
    SnprintfCorrect m pbuf out n fmt args s text := by
  have hlen := length_append_nul text
  have hlen' : (text ++ [(0 : UInt8)] ++ [0]).length = text.length + 2 := by
    rw [List.length_append, hlen]
    rfl
  have hholds : (formatted m pbuf text).mem.Holds pbuf (text ++ [0]) :=
    ByteMem.holds_put fun i hi => hpbuf i (by omega)
  have hcopy := strncpy_eq hout0 hpbuf0 hholds
    (fun i hi => ByteMem.put_inside.2 (hout i (by omega)))
    (fun i hi j hj => hne i (by omega) j (by omega))
  rw [hlen] at hcopy
  obtain ⟨t1, hcopy, hmem, hwrites⟩ : ∃ t1,
      strncpy out pbuf (text.length + 1) (formatted m pbuf text) = some (out, t1) ∧
        t1.mem = (formatted m pbuf text).mem.put out (text ++ [0] ++ [0]) ∧
        t1.writes = List.range' pbuf (text.length + 1) ++ List.range' out (text.length + 1 + 1) :=
    ⟨_, hcopy, rfl, rfl⟩
  have hinside : ∀ i < n, t1.mem.Inside (out + i) 1 := by
    intro i hi
    rw [hmem]
    exact ByteMem.put_inside.2 (ByteMem.put_inside.2 (hout i hi))
  -- the terminator goes where `strncpy` has put one already
  have hterm := @TraceMem.store_inside (out + (text.length + 1)) 0 t1 (hinside _ (by omega))
  have hrun := @snprintf_eq m s pbuf out n fmt text args htext fun i hi => hpbuf i (by omega)
  rw [min_eq_right (by omega), if_pos hlt, hcopy, Option.bind_some, hterm] at hrun
  refine ⟨_, _, List.range' out (text.length + 1 + 1) ++ [out + (text.length + 1)], hrun, ?_, ?_,
    ?_⟩
  · simp only [hwrites, List.append_assoc]
  · intro a ha
    rw [List.mem_append, List.mem_range'_1, List.mem_singleton] at ha
    omega
  · rw [List.take_of_length_le (by omega), ByteMem.holds_iff]
    intro i hi
    constructor
    · exact ByteMem.put_inside.2 (hinside i (by omega))
    · simp only [hmem]
      rw [ByteMem.put_frame (by omega), ByteMem.put_byte (by omega), List.getElem_append_left hi]

/-- For a text of fewer than 1024 characters, `snprintf` is correct exactly if the buffer has room
for the text, its NUL and one byte more, and `pbuf` for the text and its NUL and one byte more. -/
theorem snprintfCorrect_iff {m s : ByteMem} {pbuf out n : ℕ} {fmt text : List UInt8}
    {args : List UInt64} (hpbuf0 : pbuf ≠ 0) (hout0 : out ≠ 0)
    (htext : vsprintf m fmt args s = some (text.length + 1, text ++ [0]))
    (hlt : text.length < pbufMaxSize) (hpbuf : ∀ i < pbufMaxSize, m.Inside (pbuf + i) 1)
    (hout : ∀ i < n, m.Inside (out + i) 1)
    (hne : ∀ i < n, ∀ j < pbufMaxSize, out + i ≠ pbuf + j) :
    SnprintfCorrect m pbuf out n fmt args s text ↔
      text.length + 2 ≤ n ∧ text.length + 1 < pbufMaxSize := by
  constructor
  · rintro ⟨ret, m', w, hrun, hw, hin, -⟩
    rcases snprintf_writes htext (fun i hi => hpbuf i (by omega)) hrun with ⟨hret, hwrites⟩
    rw [hwrites, List.append_assoc, List.append_assoc, List.append_right_inj] at hw
    have hmem : out + min n (text.length + 1) ∈ w := by
      rw [← hw]
      exact List.mem_append_right _ List.mem_cons_self
    have hbound := (hin _ hmem).2
    omega
  · rintro ⟨hn, hfit⟩
    exact snprintfCorrect hpbuf0 hout0 htext hpbuf hout hne hn hfit

/-- `pbuf` at 200, and the buffer at 2000. -/
def buffers : ByteMem := ⟨200, 3000, fun _ => 0⟩

theorem buffers_inside {p k : ℕ} (hlo : 200 ≤ p) (hhi : p + k ≤ 3000) :
    ∀ i < k, buffers.Inside (p + i) 1 := by
  intro i hi
  constructor
  · change 200 ≤ p + i
    omega
  · change p + i + 1 ≤ 3000
    omega

theorem buffers_ne {n : ℕ} : ∀ i < n, ∀ j < pbufMaxSize, 2000 + i ≠ 200 + j := by
  intro i _ j hj
  unfold pbufMaxSize at hj
  omega

/-- The format "a" with a buffer of 3 bytes. -/
theorem snprintfCorrect_three : SnprintfCorrect buffers 200 2000 3 [97, 0] [] scratch [97] := by
  exact (snprintfCorrect_iff (by decide) (by decide) (by decide) (by decide)
    (buffers_inside (by decide) (by decide)) (buffers_inside (by decide) (by decide))
    buffers_ne).2 (by decide)

/-- With a buffer of 1 byte a NUL is stored behind it. -/
theorem not_snprintfCorrect : ¬ ∀ m s pbuf out n fmt text args, pbuf ≠ 0 → out ≠ 0 → 1 ≤ n →
    vsprintf m fmt args s = some (text.length + 1, text ++ [0]) → text.length < pbufMaxSize →
    (∀ i < pbufMaxSize, m.Inside (pbuf + i) 1) → (∀ i < n, m.Inside (out + i) 1) →
    (∀ i < n, ∀ j < pbufMaxSize, out + i ≠ pbuf + j) →
    SnprintfCorrect m pbuf out n fmt args s text := by
  intro h
  have hpbuf : ∀ i < pbufMaxSize, buffers.Inside (200 + i) 1 :=
    buffers_inside (by decide) (by decide)
  have htext : vsprintf buffers [97, 0] [] scratch =
      some (([97] : List UInt8).length + 1, [97] ++ [0]) := by decide
  rcases h buffers scratch 200 2000 1 [97, 0] [97] [] (by decide) (by decide) (by decide) htext
    (by decide) hpbuf (buffers_inside (by decide) (by decide)) buffers_ne with
    ⟨ret, m', w, hrun, hw, hbound, -⟩
  rcases snprintf_writes htext
    (fun i hi => hpbuf i (lt_of_le_of_lt hi (by decide))) hrun with ⟨-, hwrites⟩
  rw [hwrites, List.append_assoc, List.append_assoc, List.append_right_inj] at hw
  have hmem : 2001 ∈ w := by
    rw [← hw]
    decide
  exact absurd (hbound _ hmem).2 (by decide)

end OsLab
