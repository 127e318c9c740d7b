import OsLab.Klib.Trace

/-! # `strncpy`, `strcpy` and `strcat` of the C library of the kernel (`klib/src/string.c`)

The loop of `strncpy` copies `n` bytes without looking for a NUL, and then one
more byte is set to NUL: the one behind the `n` bytes. That is what `strcpy` and
`strcat` want of it, but not what `strncpy` of C does.
-/

namespace OsLab

/-- `for (size_t i = 0; i < n; i++, p_dst++, p_src++) *p_dst = *p_src;` -/
def copyBytes : ℕ → ℕ → ℕ → TraceMem → Option TraceMem
  | 0, _, _, t => some t
  | n + 1, dst, src, t => (t.load src).bind fun r => (r.2.store dst r.1).bind fun t' =>
      copyBytes n (dst + 1) (src + 1) t'

/-- `strncpy`. -/
def strncpy (dst src n : ℕ) (t : TraceMem) : Option (ℕ × TraceMem) :=
  if dst = 0 ∨ src = 0 then none
  else (copyBytes n dst src t).bind fun t' => (t'.store (dst + n) 0).map fun t' => (dst, t')

/-- `strcpy`. -/
def strcpy (dst src : ℕ) (t : TraceMem) : Option (ℕ × TraceMem) :=
  if dst = 0 ∨ src = 0 then none
  else (strlen src t).bind fun len => strncpy dst src len.1 len.2

/-- `strcat`. -/
def strcat (dst src : ℕ) (t : TraceMem) : Option (ℕ × TraceMem) :=
  if dst = 0 ∨ src = 0 then none
  else (strlen dst t).bind fun len => (strcpy (dst + len.1) src len.2).map fun r => (dst, r.2)

/-- `strncpy` reads nothing behind the string `s` at `src`, and the `n` bytes at `dst` are the
string cut or filled up with NULs; no other byte changes. -/
def StrncpyCorrect (m : ByteMem) (dst src : ℕ) (s : List UInt8) (n : ℕ) : Prop :=
  ∃ m', strncpy dst src n m.traced = some (dst, m') ∧
    (∀ a ∈ m'.reads, src ≤ a ∧ a ≤ src + s.length) ∧
    (∀ i < n, m'.mem.byte (dst + i) = s.getD i 0) ∧
    ∀ a, a < dst ∨ dst + n ≤ a → m'.mem.byte a = m.byte a

/-- `strcpy` stores `s` and its NUL, and no other byte changes. -/
def StrcpyCorrect (m : ByteMem) (dst src : ℕ) (s : List UInt8) : Prop :=
  ∃ m', strcpy dst src m.traced = some (dst, m') ∧ m'.mem.Holds dst (s ++ [0]) ∧
    ∀ a, a < dst ∨ dst + s.length + 1 ≤ a → m'.mem.byte a = m.byte a

/-- `strcat` stores `s` and its NUL behind the string `d` at `dst`, and no other byte changes. -/
def StrcatCorrect (m : ByteMem) (dst src : ℕ) (d s : List UInt8) : Prop :=
  ∃ m', strcat dst src m.traced = some (dst, m') ∧ m'.mem.Holds dst (d ++ s ++ [0]) ∧
    ∀ a, a < dst + d.length ∨ dst + d.length + s.length + 1 ≤ a → m'.mem.byte a = m.byte a

/-! ## The loop -/

/-- The trace with the bytes `x` copied from `src` to `dst`. -/
def TraceMem.copied (t : TraceMem) (dst src : ℕ) (x : List UInt8) : TraceMem where
  mem := t.mem.put dst x
  reads := t.reads ++ List.range' src x.length
  writes := t.writes ++ List.range' dst x.length

/-- The loop copies the bytes `x` when source and target do not overlap. -/
theorem copyBytes_eq {x : List UInt8} {dst src : ℕ} {t : TraceMem} (hx : t.mem.Holds src x)
    (hin : ∀ i < x.length, t.mem.Inside (dst + i) 1)
    (hne : ∀ i < x.length, ∀ j < x.length, dst + i ≠ src + j) :
    copyBytes x.length dst src t = some (t.copied dst src x) := by
  induction x generalizing dst src t with
  | nil =>
      unfold TraceMem.copied
      rw [List.length_nil, List.range'_zero, List.range'_zero, List.append_nil, List.append_nil]
      rfl
  | cons b x ih =>
      rcases hx with ⟨hsrc, hb, hx⟩
      rw [List.length_cons] at hin hne
      have hstore := @TraceMem.store_inside dst b (t.noteReads [src]) (hin 0 (by omega))
      have hrest : (t.mem.put dst [b]).Holds (src + 1) x := by
        apply hx.congr (ByteMem.put_start ..) (ByteMem.put_stop ..)
        intro a hlo hhi
        apply ByteMem.put_frame
        have := hne 0 (by omega) (a - src) (by omega)
        rw [List.length_singleton]
        omega
      rw [List.length_cons, copyBytes, TraceMem.load_inside hsrc, hb, Option.bind_some, hstore,
        Option.bind_some]
      refine (ih hrest ?_ ?_).trans ?_
      · intro i hi
        have := hin (i + 1) (by omega)
        rw [TraceMem.noteReads_mem, ByteMem.put_inside, Nat.add_assoc, Nat.add_comm 1]
        exact this
      · intro i hi j hj
        have := hne (i + 1) (by omega) (j + 1) (by omega)
        omega
      · unfold TraceMem.copied
        rw [TraceMem.noteReads_reads, List.append_assoc, List.append_assoc]
        rfl

/-- It reads and writes `n` bytes, whatever they are. -/
theorem copyBytes_trace {n dst src : ℕ} {t t' : TraceMem} (h : copyBytes n dst src t = some t') :
    t'.reads = t.reads ++ List.range' src n ∧ t'.writes = t.writes ++ List.range' dst n ∧
      ∀ p k, t'.mem.Inside p k ↔ t.mem.Inside p k := by
  induction n generalizing dst src t with
  | zero =>
      cases h
      rw [List.range'_zero, List.range'_zero, List.append_nil, List.append_nil]
      exact ⟨rfl, rfl, fun _ _ => Iff.rfl⟩
  | succ n ih =>
      rw [copyBytes, Option.bind_eq_some_iff] at h
      rcases h with ⟨r, hload, h⟩
      rw [Option.bind_eq_some_iff] at h
      rcases h with ⟨t1, hstore, h⟩
      obtain ⟨-, rfl⟩ := TraceMem.load_some hload
      obtain ⟨-, rfl⟩ := TraceMem.store_some hstore
      rcases ih h with ⟨hreads, hwrites, hinside⟩
      rw [hreads, hwrites, TraceMem.noteReads_reads, TraceMem.noteReads_writes, List.append_assoc,
        List.append_assoc]
      refine ⟨rfl, rfl, fun p k => ?_⟩
      rw [hinside, ByteMem.put_inside, TraceMem.noteReads_mem]

/-! ## The three functions -/

/-- The bytes `x` and a NUL are stored. -/
theorem strncpy_eq {x : List UInt8} {dst src : ℕ} {t : TraceMem} (hdst : dst ≠ 0) (hsrc : src ≠ 0)
    (hx : t.mem.Holds src x) (hin : ∀ i ≤ x.length, t.mem.Inside (dst + i) 1)
    (hne : ∀ i < x.length, ∀ j < x.length, dst + i ≠ src + j) :
    strncpy dst src x.length t = some (dst, ⟨t.mem.put dst (x ++ [0]),
      t.reads ++ List.range' src x.length, t.writes ++ List.range' dst (x.length + 1)⟩) := by
  have hcopy := copyBytes_eq hx (fun i hi => hin i hi.le) hne
  have hstore := @TraceMem.store_inside (dst + x.length) 0 (t.copied dst src x)
    (ByteMem.put_inside.2 (hin x.length le_rfl))
  rw [strncpy, if_neg (by omega), hcopy, Option.bind_some, hstore, Option.map_some]
  unfold TraceMem.copied
  rw [ByteMem.put_append, List.append_assoc, List.range'_1_concat]

/-- What `strncpy` has read and written, if it comes back. -/
theorem strncpy_some {n dst src p : ℕ} {t t' : TraceMem}
    (h : strncpy dst src n t = some (p, t')) :
    t.mem.Inside (dst + n) 1 ∧ t'.mem.byte (dst + n) = 0 ∧
      t'.reads = t.reads ++ List.range' src n ∧
      t'.writes = t.writes ++ List.range' dst n ++ [dst + n] := by
  unfold strncpy at h
  split at h
  · cases h
  · rw [Option.bind_eq_some_iff] at h
    rcases h with ⟨t1, hloop, h⟩
    rw [Option.map_eq_some_iff] at h
    rcases h with ⟨t2, hnul, heq⟩
    cases heq
    obtain ⟨hend, rfl⟩ := TraceMem.store_some hnul
    rcases copyBytes_trace hloop with ⟨hreads, hwrites, hinside⟩
    refine ⟨(hinside _ _).1 hend, ?_, hreads, ?_⟩
    · exact ByteMem.put_byte (x := [0]) (i := 0) Nat.one_pos
    · rw [← hwrites]

theorem strcpy_eq {s : List UInt8} {dst src : ℕ} {t : TraceMem} (hdst : dst ≠ 0) (hsrc : src ≠ 0)
    (hs : 0 ∉ s) (hps : t.mem.Holds src (s ++ [0]))
    (hin : ∀ i ≤ s.length, t.mem.Inside (dst + i) 1)
    (hne : ∀ i < s.length, ∀ j < s.length, dst + i ≠ src + j) :
    ∃ m', strcpy dst src t = some (dst, m') ∧ m'.mem = t.mem.put dst (s ++ [0]) := by
  have hcopy := @strncpy_eq s dst src (t.noteReads (List.range' src (s.length + 1))) hdst hsrc
    (ByteMem.holds_append.1 hps).1 hin hne
  rw [strcpy, if_neg (by omega), strlen_eq hsrc hs hps, Option.bind_some, hcopy]
  exact ⟨_, rfl, rfl⟩

theorem strcat_eq {s d : List UInt8} {dst src : ℕ} {t : TraceMem} (hdst : dst ≠ 0)
    (hsrc : src ≠ 0) (hs : 0 ∉ s) (hd : 0 ∉ d) (hps : t.mem.Holds src (s ++ [0]))
    (hpd : t.mem.Holds dst (d ++ [0]))
    (hin : ∀ i ≤ s.length, t.mem.Inside (dst + d.length + i) 1)
    (hne : ∀ i < s.length, ∀ j < s.length, dst + d.length + i ≠ src + j) :
    ∃ m', strcat dst src t = some (dst, m') ∧
      m'.mem = t.mem.put (dst + d.length) (s ++ [0]) := by
  rcases @strcpy_eq s (dst + d.length) src (t.noteReads (List.range' dst (d.length + 1)))
    (by omega) hsrc hs hps hin hne with ⟨m', hrun, hmem⟩
  rw [strcat, if_neg (by omega), strlen_eq hdst hd hpd, Option.bind_some, hrun]
  exact ⟨m', rfl, hmem⟩

theorem strcpyCorrect {m : ByteMem} {dst src : ℕ} {s : List UInt8} (hdst : dst ≠ 0)
    (hsrc : src ≠ 0) (hs : 0 ∉ s) (hps : m.Holds src (s ++ [0]))
    (hin : ∀ i ≤ s.length, m.Inside (dst + i) 1)
    (hne : ∀ i ≤ s.length, ∀ j ≤ s.length, dst + i ≠ src + j) : StrcpyCorrect m dst src s := by
  have hlen := length_append_nul s
  rcases strcpy_eq (t := m.traced) hdst hsrc hs hps hin
    (fun i hi j hj => hne i hi.le j hj.le) with ⟨m', hrun, hmem⟩
  refine ⟨m', hrun, ?_, ?_⟩
  · rw [hmem]
    apply ByteMem.holds_put
    intro i hi
    exact hin i (by omega)
  · intro a ha
    rw [hmem]
    exact ByteMem.put_frame (by omega)

theorem strcatCorrect {m : ByteMem} {dst src : ℕ} {s d : List UInt8} (hdst : dst ≠ 0)
    (hsrc : src ≠ 0) (hs : 0 ∉ s) (hd : 0 ∉ d) (hps : m.Holds src (s ++ [0]))
    (hpd : m.Holds dst (d ++ [0])) (hin : ∀ i ≤ s.length, m.Inside (dst + d.length + i) 1)
    (hne : ∀ i ≤ d.length + s.length, ∀ j ≤ s.length, dst + i ≠ src + j) :
    StrcatCorrect m dst src d s := by
  have hlen := length_append_nul s
  rcases strcat_eq (t := m.traced) hdst hsrc hs hd hps hpd hin
    (fun i hi j hj => by
      have := hne (d.length + i) (by omega) j (by omega)
      omega) with ⟨m', hrun, hmem⟩
  refine ⟨m', hrun, ?_, ?_⟩
  · rw [hmem, List.append_assoc, ByteMem.holds_append]
    constructor
    · -- the old string is still there
      apply (ByteMem.holds_append.1 hpd).1.congr (ByteMem.put_start ..) (ByteMem.put_stop ..)
      intro a _ ha
      exact ByteMem.put_frame (Or.inl ha)
    · apply ByteMem.holds_put
      intro i hi
      exact hin i (by omega)
  · intro a ha
    rw [hmem]
    exact ByteMem.put_frame (by omega)

/-! ## When `strncpy` is correct -/

/-- A string filled up with NULs, cut to `n` bytes. -/
theorem getElem_take_append {s : List UInt8} {n i : ℕ} (h : i < ((s ++ [0]).take n).length) :
    ((s ++ [0]).take n)[i] = s.getD i 0 := by
  rw [List.getElem_take, List.getD_eq_getElem?_getD]
  rcases Nat.lt_or_ge i s.length with hlt | hge
  · rw [List.getElem_append_left hlt, List.getElem?_eq_getElem hlt]
    rfl
  · rw [List.getElem_append_right hge, List.getElem?_eq_none hge]
    simp

/-- `strncpy` is correct exactly if it is not asked for more than the string and its NUL, and the
byte behind the target is a NUL already. -/
theorem strncpyCorrect_iff {m : ByteMem} {dst src n : ℕ} {s : List UInt8} (hdst : dst ≠ 0)
    (hsrc : src ≠ 0) (hps : m.Holds src (s ++ [0])) (hin : ∀ i < n, m.Inside (dst + i) 1)
    (hne : ∀ i < n, ∀ j ≤ s.length, dst + i ≠ src + j) :
    StrncpyCorrect m dst src s n ↔
      n ≤ s.length + 1 ∧ m.Inside (dst + n) 1 ∧ m.byte (dst + n) = 0 := by
  constructor
  · rintro ⟨m', hrun, hreads, -, hframe⟩
    rcases strncpy_some hrun with ⟨hend, hnul, hread, -⟩
    rw [ByteMem.traced_reads, List.nil_append] at hread
    refine ⟨?_, hend, ?_⟩
    · by_contra hgt
      -- the round behind the NUL
      have hmem : src + (s.length + 1) ∈ m'.reads := by
        rw [hread, List.mem_range'_1]
        omega
      have := (hreads _ hmem).2
      omega
    · rw [← hframe (dst + n) (Or.inr le_rfl)]
      exact hnul
  · rintro ⟨hn, hend, hnul⟩
    have hlen : ((s ++ [(0 : UInt8)]).take n).length = n := by
      rw [List.length_take, length_append_nul, min_eq_left hn]
    have hcut : m.traced.mem.Holds src ((s ++ [0]).take n) := ByteMem.holds_take hps n
    have hrun := @strncpy_eq ((s ++ [0]).take n) dst src m.traced hdst hsrc hcut
    rw [hlen] at hrun
    refine ⟨_, hrun ?_ ?_, ?_, ?_, ?_⟩
    · intro i hi
      rcases Nat.lt_or_eq_of_le hi with hlt | rfl
      · exact hin i hlt
      · exact hend
    · intro i hi j hj
      exact hne i hi j (by omega)
    · intro a ha
      rw [ByteMem.traced_reads, List.nil_append, List.mem_range'_1] at ha
      omega
    · intro i hi
      rw [← ByteMem.put_append, hlen]
      simp only
      rw [ByteMem.put_frame (Or.inl (by omega)), ByteMem.put_byte (by omega),
        getElem_take_append]
    · intro a ha
      rw [← ByteMem.put_append, hlen]
      simp only
      by_cases hlast : a = dst + n
      · subst hlast
        rw [hnul]
        exact ByteMem.put_byte (x := [0]) (i := 0) Nat.one_pos
      · rw [ByteMem.put_frame, ByteMem.put_frame (by omega)]
        · rfl
        · rw [List.length_singleton]
          omega

/-- The same with `strcpy` and `strcat`, which are always correct. -/
theorem stringCopies_iff {m : ByteMem} {dst dst' dst'' src n : ℕ} {s d : List UInt8}
    (hdst : dst ≠ 0) (hdst' : dst' ≠ 0) (hdst'' : dst'' ≠ 0) (hsrc : src ≠ 0) (hs : 0 ∉ s)
    (hd : 0 ∉ d) (hps : m.Holds src (s ++ [0])) (hin : ∀ i < n, m.Inside (dst + i) 1)
    (hne : ∀ i < n, ∀ j ≤ s.length, dst + i ≠ src + j)
    (hin' : ∀ i ≤ s.length, m.Inside (dst' + i) 1)
    (hne' : ∀ i ≤ s.length, ∀ j ≤ s.length, dst' + i ≠ src + j)
    (hpd : m.Holds dst'' (d ++ [0])) (hin'' : ∀ i ≤ s.length, m.Inside (dst'' + d.length + i) 1)
    (hne'' : ∀ i ≤ d.length + s.length, ∀ j ≤ s.length, dst'' + i ≠ src + j) :
    StrncpyCorrect m dst src s n ∧ StrcpyCorrect m dst' src s ∧ StrcatCorrect m dst'' src d s ↔
      n ≤ s.length + 1 ∧ m.Inside (dst + n) 1 ∧ m.byte (dst + n) = 0 := by
  rw [strncpyCorrect_iff hdst hsrc hps hin hne]
  exact and_iff_left ⟨strcpyCorrect hdst' hsrc hs hps hin' hne',
    strcatCorrect hdst'' hsrc hs hd hps hpd hin'' hne''⟩

/-- "b" and its NUL at 1; 4 bytes `c` from 3 on; and "a" at 7, with room behind it. -/
def oneLetter (c : UInt8) : ByteMem :=
  ⟨1, 10, fun i => if i = 1 then 98 else if i = 7 then 97 else if 3 ≤ i ∧ i < 7 then c else 0⟩

/-- Two bytes from "b", to where NULs are. -/
theorem stringCopies_oneLetter :
    StrncpyCorrect (oneLetter 0) 3 1 [98] 2 ∧ StrcpyCorrect (oneLetter 0) 3 1 [98] ∧
      StrcatCorrect (oneLetter 0) 7 1 [97] [98] := by
  exact (@stringCopies_iff (oneLetter 0) 3 3 7 1 2 [98] [97] (by decide) (by decide) (by decide)
    (by decide) (by decide) (by decide) (by decide) (by decide) (by decide) (by decide) (by decide)
    (by decide) (by decide) (by decide)).2 (by decide)

/-- One byte from "b": the byte behind it is overwritten, which was 255. -/
theorem not_strncpyCorrect : ¬ ∀ m dst src s n, dst ≠ 0 → src ≠ 0 → 0 ∉ s →
    ByteMem.Holds m src (s ++ [0]) → (∀ i < n, m.Inside (dst + i) 1) →
    (∀ i < n, ∀ j ≤ s.length, dst + i ≠ src + j) → StrncpyCorrect m dst src s n := by
  intro h
  rcases h (oneLetter 255) 3 1 [98] 1 (by decide) (by decide) (by decide) (by decide) (by decide)
    (by decide) with ⟨m', hrun, -, -, hframe⟩
  have hnul : (strncpy 3 1 1 (oneLetter 255).traced).map (fun r => r.2.mem.byte 4) = some 0 := by
    rfl
  rw [hrun, Option.map_some, hframe 4 (by decide)] at hnul
  exact absurd (Option.some.inj hnul) (by decide)

end OsLab
