import OsLab.Klib.Trace
import OsLab.Lib.Lex

/-! # `memcmp`, `strncmp` and `strcmp` of the C library of the kernel (`klib/src/string.c`)

The bytes are compared and subtracted as plain `char`, which is signed. So the
sign is that of the C order only where the first two bytes that differ are
both below 128 or both above. `strncmp` has no test for a NUL: on two equal
strings it reads on behind them.
-/

namespace OsLab

open Lex

/-- The order of the bytes as `unsigned char`. -/
instance instLinearOrderByte : LinearOrder UInt8 where
  le_refl := UInt8.le_refl
  le_trans _ _ _ := UInt8.le_trans
  le_antisymm _ _ := UInt8.le_antisymm
  le_total := UInt8.le_total
  lt_iff_le_not_ge a b := by
    rw [UInt8.lt_iff_toNat_lt, UInt8.le_iff_toNat_le, UInt8.le_iff_toNat_le]
    omega
  toDecidableLE := inferInstance
  toDecidableLT := inferInstance

/-- A byte as a plain `char`. -/
def charVal (b : UInt8) : ℤ := b.toInt8.toInt

/-- `for (size_t i = 0; i < n; i++, p_s1++, p_s2++)` of `memcmp` and `strncmp`. -/
def compareFrom : ℕ → ℕ → ℕ → TraceMem → Option (ℤ × TraceMem)
  | 0, _, _, t => some (0, t)
  | n + 1, p, q, t => (t.load p).bind fun r => (r.2.load q).bind fun r' =>
      if r.1 ≠ r'.1 then some (charVal r.1 - charVal r'.1, r'.2)
      else compareFrom n (p + 1) (q + 1) r'.2

/-- `memcmp`. -/
def memcmp (s1 s2 n : ℕ) (t : TraceMem) : Option (ℤ × TraceMem) :=
  if s1 = 0 ∨ s2 = 0 then none else compareFrom n s1 s2 t

/-- `strncmp`. -/
def strncmp (s1 s2 n : ℕ) (t : TraceMem) : Option (ℤ × TraceMem) :=
  if s1 = 0 ∨ s2 = 0 then none else compareFrom n s1 s2 t

/-- `strcmp`. -/
def strcmp (s1 s2 : ℕ) (t : TraceMem) : Option (ℤ × TraceMem) :=
  if s1 = 0 ∨ s2 = 0 then none
  else (strlen s1 t).bind fun len1 => (strlen s2 len1.2).bind fun len2 =>
    let n := if len1.1 < len2.1 then len1.1 else len2.1
    strncmp s1 s2 (n + 1) len2.2

/-- What `k` rounds of the loop read. -/
def pairReads : ℕ → ℕ → ℕ → List ℕ
  | _, _, 0 => []
  | p, q, k + 1 => p :: q :: pairReads (p + 1) (q + 1) k

/-- At the first place where they differ, both bytes are below 128 or both are not. -/
def SameSide (x y : List UInt8) : Prop :=
  ∀ a b, firstDiff x y = some (a, b) → (a < 128 ↔ b < 128)

/-- The answers for swapped arguments have opposite signs, and so on along a third argument. -/
structure CompareLaws (cmp : ℕ → ℕ → Option ℤ) (p q o : ℕ) : Prop where
  antisymm : ∀ r, cmp p q = some r → cmp q p = some (-r)
  trans : ∀ r r', cmp p q = some r → cmp q o = some r' → r ≤ 0 → r' ≤ 0 →
    ∃ r'', cmp p o = some r'' ∧ r'' ≤ 0 ∧ (r'' = 0 → r = 0 ∧ r' = 0)

/-- The value that a comparison of `m` answers. -/
def answer (cmp : TraceMem → Option (ℤ × TraceMem)) (m : ByteMem) : Option ℤ :=
  (cmp m.traced).map Prod.fst

/-- The strings `s`, `t` at `p`, `q` are compared in the C order, also cut to `n` bytes, and so are
the blocks `x`, `y` at `p'`, `q'`. -/
structure ComparesInOrder (m : ByteMem) (p q : ℕ) (s t : List UInt8) (n p' q' : ℕ)
    (x y : List UInt8) : Prop where
  strcmp : ∃ r m', strcmp p q m.traced = some (r, m') ∧ Orders r s t
  strncmp : ∃ r m', strncmp p q n m.traced = some (r, m') ∧ Orders r (s.take n) (t.take n) ∧
    -- not past a NUL common to both
    ∃ k ≤ min s.length t.length + 1, m'.reads = pairReads p q k
  memcmp : ∃ r m', memcmp p' q' x.length m.traced = some (r, m') ∧ Orders r x y

/-- The three comparisons are antisymmetric and transitive in sign, and agree on strings of one
length. -/
structure CompareConsistent (m : ByteMem) (p q o : ℕ) (s t : List UInt8) (n p' q' o' k : ℕ) :
    Prop where
  strcmp : CompareLaws (fun a b => answer (strcmp a b) m) p q o
  strncmp : CompareLaws (fun a b => answer (strncmp a b n) m) p q o
  memcmp : CompareLaws (fun a b => answer (memcmp a b k) m) p' q' o'
  agree : s.length = t.length → answer (OsLab.strcmp p q) m = answer (OsLab.memcmp p q s.length) m ∧
    answer (OsLab.strncmp p q s.length) m = answer (OsLab.memcmp p q s.length) m

/-! ## Signed bytes -/

theorem charVal_eq (b : UInt8) :
    charVal b = if b < 128 then (b.toNat : ℤ) else (b.toNat : ℤ) - 256 := by
  have hb := b.toNat_lt
  unfold charVal
  rw [← Int8.toInt_toBitVec, UInt8.toBitVec_toInt8, BitVec.toInt_eq_toNat_cond,
    UInt8.toNat_toBitVec]
  simp only [UInt8.lt_iff_toNat_lt, UInt8.reduceToNat]
  split <;> split <;> omega

theorem charVal_injective : Function.Injective charVal := by
  intro a b h
  rw [charVal_eq, charVal_eq] at h
  have ha := a.toNat_lt
  have hb := b.toNat_lt
  apply UInt8.toNat.inj
  simp only [UInt8.lt_iff_toNat_lt, UInt8.reduceToNat] at h
  split at h <;> split at h <;> omega

theorem charVal_lt_iff {a b : UInt8} (hne : a ≠ b) :
    (charVal a < charVal b ↔ a < b) ↔ (a < 128 ↔ b < 128) := by
  have ha := a.toNat_lt
  have hb := b.toNat_lt
  have hab : a.toNat ≠ b.toNat := fun h => hne (UInt8.toNat.inj h)
  rw [charVal_eq, charVal_eq]
  simp only [UInt8.lt_iff_toNat_lt, UInt8.reduceToNat]
  split <;> split <;> omega

theorem orders_iff_sameSide {x y : List UInt8} (hxy : Apart x y) :
    Orders (diffBy charVal x y) x y ↔ SameSide x y := by
  rw [orders_diffBy_iff charVal_injective hxy]
  refine forall_congr' fun a => forall_congr' fun b => ?_
  constructor
  · intro h hd
    exact (charVal_lt_iff (ne_of_firstDiff hd)).1 (h hd)
  · intro h hd
    exact (charVal_lt_iff (ne_of_firstDiff hd)).2 (h hd)

/-! ## The loop -/

theorem length_pairReads (p q k : ℕ) : (pairReads p q k).length = 2 * k := by
  induction k generalizing p q with
  | zero => rfl
  | succ k ih =>
      rw [pairReads, List.length_cons, List.length_cons, ih]
      omega

theorem compareFrom_succ {n p q : ℕ} {t : TraceMem} (hp : t.mem.Inside p 1)
    (hq : t.mem.Inside q 1) :
    compareFrom (n + 1) p q t =
      if t.mem.byte p ≠ t.mem.byte q then
        some (charVal (t.mem.byte p) - charVal (t.mem.byte q), t.noteReads [p, q])
      else compareFrom n (p + 1) (q + 1) (t.noteReads [p, q]) := by
  rw [compareFrom, TraceMem.load_inside hp, Option.bind_some,
    TraceMem.load_inside (t := t.noteReads [p]) hq, Option.bind_some,
    TraceMem.noteReads_noteReads]
  rfl

theorem compareFrom_inside {n p q : ℕ} {t : TraceMem} {r : ℤ × TraceMem}
    (h : compareFrom (n + 1) p q t = some r) : t.mem.Inside p 1 ∧ t.mem.Inside q 1 := by
  rw [compareFrom, Option.bind_eq_some_iff] at h
  rcases h with ⟨r1, hr1, h⟩
  rw [Option.bind_eq_some_iff] at h
  rcases h with ⟨r2, hr2, -⟩
  obtain ⟨hp, rfl⟩ := TraceMem.load_some hr1
  exact ⟨hp, (TraceMem.load_some hr2).1⟩

/-- The rounds on which both sides are the same. -/
theorem compareFrom_same {x : List UInt8} {p q : ℕ} {t : TraceMem} (hp : t.mem.Holds p x)
    (hq : t.mem.Holds q x) (j : ℕ) :
    compareFrom (x.length + j) p q t =
      compareFrom j (p + x.length) (q + x.length) (t.noteReads (pairReads p q x.length)) := by
  induction x generalizing p q t with
  | nil =>
      rw [List.length_nil, Nat.zero_add, pairReads, TraceMem.noteReads_nil]
      rfl
  | cons a x ih =>
      rcases hp with ⟨hpin, hpa, hp⟩
      rcases hq with ⟨hqin, hqa, hq⟩
      have hrec := @ih (p + 1) (q + 1) (t.noteReads [p, q]) hp hq
      rw [List.length_cons, Nat.add_right_comm, compareFrom_succ hpin hqin, hpa, hqa,
        if_neg (fun h => h rfl), hrec, TraceMem.noteReads_noteReads, Nat.add_assoc p,
        Nat.add_assoc q, Nat.add_comm 1]
      rfl

/-- The loop stops at the first difference. -/
theorem compareFrom_diff {x y : List UInt8} {a b : UInt8} {p q n : ℕ} {t : TraceMem}
    (hp : t.mem.Holds p x) (hq : t.mem.Holds q y) (hn : min x.length y.length ≤ n)
    (hd : firstDiff x y = some (a, b)) :
    ∃ k ≤ min x.length y.length,
      compareFrom n p q t = some (charVal a - charVal b, t.noteReads (pairReads p q k)) := by
  induction x generalizing y p q n t with
  | nil => cases hd
  | cons c x ih =>
      cases y with
      | nil => cases hd
      | cons d y =>
          rcases hp with ⟨hpin, hpc, hp⟩
          rcases hq with ⟨hqin, hqd, hq⟩
          rw [List.length_cons, List.length_cons] at hn ⊢
          cases n with
          | zero => omega
          | succ n =>
              rw [compareFrom_succ hpin hqin, hpc, hqd]
              by_cases hcd : c = d
              · subst hcd
                rw [firstDiff_cons_self] at hd
                rcases @ih y (p + 1) (q + 1) n (t.noteReads [p, q]) hp hq (by omega) hd with
                  ⟨k, hk, hrec⟩
                refine ⟨k + 1, by omega, ?_⟩
                rw [if_neg (fun h => h rfl), hrec, TraceMem.noteReads_noteReads]
                rfl
              · rw [firstDiff_cons_of_ne hcd] at hd
                cases hd
                exact ⟨1, by omega, if_pos hcd⟩

/-- Both sides of one length, read to the end or to the first difference. -/
theorem compareFrom_eq {x y : List UInt8} {p q : ℕ} {t : TraceMem} (hp : t.mem.Holds p x)
    (hq : t.mem.Holds q y) (hlen : x.length = y.length) :
    ∃ k ≤ x.length, compareFrom x.length p q t =
      some (diffBy charVal x y, t.noteReads (pairReads p q k)) := by
  cases hd : firstDiff x y with
  | none =>
      obtain rfl := apart_of_length_eq hlen hd
      refine ⟨x.length, le_rfl, ?_⟩
      have hsame := compareFrom_same hp hq 0
      rw [Nat.add_zero] at hsame
      rw [hsame, diffBy_self]
      rfl
  | some d =>
      rcases d with ⟨a, b⟩
      rcases compareFrom_diff hp hq (min_le_left _ _) hd with ⟨k, hk, hrun⟩
      refine ⟨k, by omega, ?_⟩
      rw [hrun, diffBy_of_some hd]

theorem memcmp_eq {x y : List UInt8} {p q : ℕ} {T : TraceMem} (hp : p ≠ 0) (hq : q ≠ 0)
    (hpx : T.mem.Holds p x) (hqy : T.mem.Holds q y) (hlen : x.length = y.length) :
    ∃ m', memcmp p q x.length T = some (diffBy charVal x y, m') := by
  rcases compareFrom_eq hpx hqy hlen with ⟨k, -, hrun⟩
  rw [memcmp, if_neg (by omega), hrun]
  exact ⟨_, rfl⟩

/-- The loop never forgets what it read. -/
theorem compareFrom_reads {n p q : ℕ} {t m' : TraceMem} {r : ℤ}
    (h : compareFrom n p q t = some (r, m')) : t.reads.length + min n 1 ≤ m'.reads.length := by
  induction n generalizing p q t with
  | zero =>
      cases h
      exact le_rfl
  | succ n ih =>
      rcases compareFrom_inside h with ⟨hp, hq⟩
      rw [compareFrom_succ hp hq] at h
      split at h
      · cases h
        rw [TraceMem.noteReads_reads, List.length_append, List.length_cons]
        omega
      · have hrec := ih h
        rw [TraceMem.noteReads_reads, List.length_append, List.length_cons] at hrec
        omega

/-! ## The order of the three functions -/

/-- With the arguments swapped the loop stops in the same round. -/
theorem compareFrom_swap {n p q : ℕ} {t t' m' : TraceMem} {r : ℤ} (hmem : t'.mem = t.mem)
    (h : compareFrom n p q t = some (r, m')) :
    ∃ m'', compareFrom n q p t' = some (-r, m'') := by
  induction n generalizing p q t t' with
  | zero =>
      cases h
      exact ⟨t', rfl⟩
  | succ n ih =>
      rcases compareFrom_inside h with ⟨hp, hq⟩
      rw [compareFrom_succ hp hq] at h
      rw [compareFrom_succ (hmem ▸ hq) (hmem ▸ hp), hmem]
      by_cases hne : t.mem.byte p = t.mem.byte q
      · rw [if_neg (fun h => h hne)] at h
        rw [if_neg (fun h => h hne.symm)]
        exact @ih (p + 1) (q + 1) (t.noteReads [p, q]) (t'.noteReads [q, p]) hmem h
      · rw [if_pos hne] at h
        rw [if_pos (Ne.symm hne)]
        cases h
        refine ⟨t'.noteReads [q, p], ?_⟩
        rw [neg_sub]

theorem compareFrom_trans {n p q o : ℕ} {t t' t'' m1 m2 : TraceMem} {r r' : ℤ}
    (hmem : t'.mem = t.mem) (hmem' : t''.mem = t.mem)
    (h : compareFrom n p q t = some (r, m1)) (h' : compareFrom n q o t' = some (r', m2))
    (hr : r ≤ 0) (hr' : r' ≤ 0) :
    ∃ r'' m3, compareFrom n p o t'' = some (r'', m3) ∧ r'' ≤ 0 ∧ (r'' = 0 → r = 0 ∧ r' = 0) := by
  induction n generalizing p q o t t' t'' with
  | zero =>
      cases h
      cases h'
      exact ⟨0, t'', rfl, le_rfl, fun _ => ⟨rfl, rfl⟩⟩
  | succ n ih =>
      rcases compareFrom_inside h with ⟨hp, hq⟩
      rcases compareFrom_inside h' with ⟨-, ho⟩
      rw [compareFrom_succ hp hq] at h
      rw [compareFrom_succ (hmem ▸ hq) ho, hmem] at h'
      rw [hmem] at ho
      rw [compareFrom_succ (hmem' ▸ hp) (hmem' ▸ ho), hmem']
      by_cases hpq : t.mem.byte p = t.mem.byte q
      · rw [if_neg (fun h => h hpq)] at h
        by_cases hqo : t.mem.byte q = t.mem.byte o
        · -- all three are the same: on to the next round
          rw [if_neg (fun h => h hqo)] at h'
          rw [if_neg (fun h => h (hpq.trans hqo))]
          exact @ih (p + 1) (q + 1) (o + 1) (t.noteReads [p, q]) (t'.noteReads [q, o])
            (t''.noteReads [p, o]) hmem hmem' h h'
        · rw [if_pos hqo] at h'
          cases h'
          have hne : charVal (t.mem.byte q) ≠ charVal (t.mem.byte o) :=
            fun heq => hqo (charVal_injective heq)
          rw [hpq, if_pos hqo]
          exact ⟨_, _, rfl, hr', fun h0 => by omega⟩
      · rw [if_pos hpq] at h
        cases h
        have hne : charVal (t.mem.byte p) ≠ charVal (t.mem.byte q) :=
          fun heq => hpq (charVal_injective heq)
        by_cases hqo : t.mem.byte q = t.mem.byte o
        · rw [← hqo, if_pos hpq]
          exact ⟨_, _, rfl, hr, fun h0 => by omega⟩
        · rw [if_pos hqo] at h'
          cases h'
          have hlt : charVal (t.mem.byte p) < charVal (t.mem.byte o) := by omega
          have hpo : t.mem.byte p ≠ t.mem.byte o := by
            intro heq
            rw [heq] at hlt
            exact absurd hlt (by omega)
          rw [if_pos hpo]
          exact ⟨_, _, rfl, by omega, fun h0 => by omega⟩

theorem answer_some {cmp : TraceMem → Option (ℤ × TraceMem)} {m : ByteMem} {r : ℤ}
    (h : answer cmp m = some r) : ∃ m', cmp m.traced = some (r, m') := by
  unfold answer at h
  rw [Option.map_eq_some_iff] at h
  rcases h with ⟨⟨r', m'⟩, hcmp, rfl⟩
  exact ⟨m', hcmp⟩

theorem answer_of_some {cmp : TraceMem → Option (ℤ × TraceMem)} {m : ByteMem} {r : ℤ}
    {m' : TraceMem} (h : cmp m.traced = some (r, m')) : answer cmp m = some r := by
  rw [answer, h]
  rfl

/-- `memcmp` and `strncmp` order whatever lies in the memory. -/
theorem compareLaws_memcmp {m : ByteMem} {p q o : ℕ} (hp : p ≠ 0) (hq : q ≠ 0) (ho : o ≠ 0)
    (n : ℕ) : CompareLaws (fun a b => answer (memcmp a b n) m) p q o := by
  have hpq : ∀ t, memcmp p q n t = compareFrom n p q t := fun t => if_neg (by omega)
  have hqp : ∀ t, memcmp q p n t = compareFrom n q p t := fun t => if_neg (by omega)
  have hqo : ∀ t, memcmp q o n t = compareFrom n q o t := fun t => if_neg (by omega)
  have hpo : ∀ t, memcmp p o n t = compareFrom n p o t := fun t => if_neg (by omega)
  constructor
  · intro r h
    rcases answer_some h with ⟨m', hrun⟩
    rw [hpq] at hrun
    rcases @compareFrom_swap n p q m.traced m.traced m' r rfl hrun with ⟨m'', hswap⟩
    exact answer_of_some ((hqp _).trans hswap)
  · intro r r' h h' hr hr'
    rcases answer_some h with ⟨m1, hrun⟩
    rcases answer_some h' with ⟨m2, hrun'⟩
    rw [hpq] at hrun
    rw [hqo] at hrun'
    rcases @compareFrom_trans n p q o m.traced m.traced m.traced m1 m2 r r' rfl rfl hrun hrun' hr
      hr' with ⟨r'', m3, h3, hle, h0⟩
    exact ⟨r'', answer_of_some ((hpo _).trans h3), hle, h0⟩

/-! ## Strings -/

section Strings

variable {p q : ℕ} {s t : List UInt8} {T : TraceMem}

/-- `strncmp` reads no further than to the end of the shorter string, if it is not asked to compare
more of two equal strings than there is. -/
theorem strncmp_eq (hp : p ≠ 0) (hq : q ≠ 0) (hs : 0 ∉ s) (ht : 0 ∉ t)
    (hps : T.mem.Holds p (s ++ [0])) (hqt : T.mem.Holds q (t ++ [0])) {n : ℕ}
    (hn : s = t → n ≤ s.length + 1) :
    ∃ k ≤ min s.length t.length + 1, strncmp p q n T =
      some (diffBy charVal ((s ++ [0]).take n) ((t ++ [0]).take n),
        T.noteReads (pairReads p q k)) := by
  have hslen : ((s ++ [0]).take n).length = min n (s.length + 1) := by
    rw [List.length_take, length_append_nul]
  have htlen : ((t ++ [0]).take n).length = min n (t.length + 1) := by
    rw [List.length_take, length_append_nul]
  have hps' := ByteMem.holds_take hps n
  have hqt' := ByteMem.holds_take hqt n
  rw [strncmp, if_neg (by omega)]
  cases hd : firstDiff ((s ++ [0]).take n) ((t ++ [0]).take n) with
  | some d =>
      rcases d with ⟨a, b⟩
      rcases compareFrom_diff (n := n) hps' hqt' (by omega) hd with ⟨k, hk, hrun⟩
      refine ⟨k, by omega, ?_⟩
      rw [hrun, diffBy_of_some hd]
  | none =>
      have heq := apart_take hs ht n hd
      have hlen : n ≤ s.length + 1 := by
        by_contra hgt
        have hl := congrArg List.length heq
        rw [List.take_of_length_le, List.take_of_length_le] at heq
        · exact hgt (hn (List.append_cancel_right heq))
        · rw [length_append_nul]
          omega
        · rw [length_append_nul]
          omega
      rcases compareFrom_eq hps' hqt' (by rw [heq]) with ⟨k, hk, hrun⟩
      have hl := congrArg List.length heq
      rw [hslen, min_eq_left hlen] at hrun
      exact ⟨k, by omega, hrun⟩

/-- On equal strings it does not stop at the NUL. -/
theorem strncmp_past (hp : p ≠ 0) (hq : q ≠ 0) (hps : T.mem.Holds p (s ++ [0]))
    (hqs : T.mem.Holds q (s ++ [0])) {n : ℕ} (hn : s.length + 1 < n) {r : ℤ} {m' : TraceMem}
    (hrun : strncmp p q n T = some (r, m')) :
    T.reads.length + 2 * (s.length + 1) < m'.reads.length := by
  have hlen := length_append_nul s
  have hsame := compareFrom_same hps hqs (n - (s.length + 1))
  rw [hlen, Nat.add_sub_cancel' hn.le] at hsame
  rw [strncmp, if_neg (by omega), hsame] at hrun
  have hgrow := compareFrom_reads hrun
  rw [TraceMem.noteReads_reads, List.length_append, length_pairReads] at hgrow
  omega

theorem strcmp_eq (hp : p ≠ 0) (hq : q ≠ 0) (hs : 0 ∉ s) (ht : 0 ∉ t)
    (hps : T.mem.Holds p (s ++ [0])) (hqt : T.mem.Holds q (t ++ [0])) :
    ∃ m', strcmp p q T = some (diffBy charVal (s ++ [0]) (t ++ [0]), m') := by
  have hmin : (if s.length < t.length then s.length else t.length) = min s.length t.length := by
    split <;> omega
  have hcut : firstDiff ((s ++ [0]).take (min s.length t.length + 1))
      ((t ++ [0]).take (min s.length t.length + 1)) = firstDiff (s ++ [0]) (t ++ [0]) := by
    apply firstDiff_take
    rw [length_append_nul, length_append_nul]
    omega
  rw [strcmp, if_neg (by omega), strlen_eq hp hs hps, Option.bind_some]
  have hlen2 := @strlen_eq t q (T.noteReads (List.range' p (s.length + 1))) hq ht hqt
  rw [hlen2, Option.bind_some]
  simp only [hmin]
  have hrun := @strncmp_eq p q s t ((T.noteReads (List.range' p (s.length + 1))).noteReads
    (List.range' q (t.length + 1))) hp hq hs ht hps hqt (min s.length t.length + 1)
  rcases hrun (fun _ => by omega) with ⟨k, -, hrun⟩
  have hdiff : diffBy charVal ((s ++ [0]).take (min s.length t.length + 1))
      ((t ++ [0]).take (min s.length t.length + 1)) = diffBy charVal (s ++ [0]) (t ++ [0]) := by
    rw [diffBy, diffBy, hcut]
  rw [hdiff] at hrun
  exact ⟨_, hrun⟩

end Strings

/-- The three results of `strcmp` along three strings. -/
theorem compareLaws_strcmp {m : ByteMem} {p q o : ℕ} {s t u : List UInt8} (hp : p ≠ 0)
    (hq : q ≠ 0) (ho : o ≠ 0) (hs : 0 ∉ s) (ht : 0 ∉ t) (hu : 0 ∉ u)
    (hps : m.Holds p (s ++ [0])) (hqt : m.Holds q (t ++ [0])) (hou : m.Holds o (u ++ [0])) :
    CompareLaws (fun a b => answer (strcmp a b) m) p q o := by
  rcases strcmp_eq (T := m.traced) hp hq hs ht hps hqt with ⟨m1, hpq⟩
  rcases strcmp_eq (T := m.traced) hq hp ht hs hqt hps with ⟨m2, hqp⟩
  rcases strcmp_eq (T := m.traced) hq ho ht hu hqt hou with ⟨m3, hqo⟩
  rcases strcmp_eq (T := m.traced) hp ho hs hu hps hou with ⟨m4, hpo⟩
  constructor
  · intro r h
    rw [answer_of_some hpq] at h
    cases h
    rw [answer_of_some hqp, diffBy_comm]
  · intro r r' h h' hr hr'
    rw [answer_of_some hpq] at h
    rw [answer_of_some hqo] at h'
    cases h
    cases h'
    exact ⟨_, answer_of_some hpo,
      diffBy_trans charVal_injective (apart_append hs ht) (apart_append ht hu)
        (apart_append hs hu) hr hr'⟩

/-- On strings of one length the three agree. -/
theorem answer_agree {m : ByteMem} {p q : ℕ} {s t : List UInt8} (hp : p ≠ 0) (hq : q ≠ 0)
    (hs : 0 ∉ s) (ht : 0 ∉ t) (hps : m.Holds p (s ++ [0])) (hqt : m.Holds q (t ++ [0]))
    (hlen : s.length = t.length) :
    answer (strcmp p q) m = answer (memcmp p q s.length) m := by
  rcases strcmp_eq (T := m.traced) hp hq hs ht hps hqt with ⟨m1, hrun⟩
  rcases memcmp_eq (T := m.traced) hp hq (ByteMem.holds_append.1 hps).1
    (ByteMem.holds_append.1 hqt).1 hlen with ⟨m2, hrun'⟩
  rw [answer_of_some hrun, answer_of_some hrun']
  by_cases hst : s = t
  · rw [hst, diffBy_self, diffBy_self]
  · rw [diffBy, diffBy, firstDiff_append hlen hst]

/-! ## When the order is the one of C -/

theorem zero_le_byte (a : UInt8) : 0 ≤ a := by
  rw [UInt8.le_iff_toNat_le]
  exact Nat.zero_le _

/-- The signs are consistent, whatever the bytes are. -/
theorem compareConsistent {m : ByteMem} {p q o p' q' o' n k : ℕ} {s t u : List UInt8}
    (hp : p ≠ 0) (hq : q ≠ 0) (ho : o ≠ 0) (hp' : p' ≠ 0) (hq' : q' ≠ 0) (ho' : o' ≠ 0)
    (hs : 0 ∉ s) (ht : 0 ∉ t) (hu : 0 ∉ u) (hps : m.Holds p (s ++ [0]))
    (hqt : m.Holds q (t ++ [0])) (hou : m.Holds o (u ++ [0])) :
    CompareConsistent m p q o s t n p' q' o' k := by
  constructor
  · exact compareLaws_strcmp hp hq ho hs ht hu hps hqt hou
  · exact compareLaws_memcmp hp hq ho n
  · exact compareLaws_memcmp hp' hq' ho' k
  · intro heq
    exact ⟨answer_agree hp hq hs ht hps hqt heq, rfl⟩

/-- The order is that of C where the first bytes that differ lie on one side of 128 and `strncmp` is
not asked to compare more of two equal strings than there is. -/
theorem comparesInOrder {m : ByteMem} {p q p' q' n : ℕ} {s t x y : List UInt8} (hp : p ≠ 0)
    (hq : q ≠ 0) (hp' : p' ≠ 0) (hq' : q' ≠ 0) (hs : 0 ∉ s) (ht : 0 ∉ t)
    (hps : m.Holds p (s ++ [0])) (hqt : m.Holds q (t ++ [0])) (hpx : m.Holds p' x)
    (hqy : m.Holds q' y) (hlen : x.length = y.length) (hside : SameSide (s ++ [0]) (t ++ [0]))
    (hn : s = t → n ≤ s.length + 1) (hside' : SameSide x y) :
    ComparesInOrder m p q s t n p' q' x y := by
  constructor
  · rcases strcmp_eq (T := m.traced) hp hq hs ht hps hqt with ⟨m', hrun⟩
    exact ⟨_, m', hrun, (orders_append zero_le_byte hs ht _).1
      ((orders_iff_sameSide (apart_append hs ht)).2 hside)⟩
  · have hcut : SameSide ((s ++ [0]).take n) ((t ++ [0]).take n) := by
      intro a b hd
      exact hside a b (firstDiff_of_take hd)
    rcases strncmp_eq (T := m.traced) hp hq hs ht hps hqt hn with ⟨k, hk, hrun⟩
    refine ⟨_, _, hrun, ?_, k, hk, ?_⟩
    · exact (orders_take_append zero_le_byte hs ht _ n).1
        ((orders_iff_sameSide (apart_take hs ht n)).2 hcut)
    · rw [TraceMem.noteReads_reads, ByteMem.traced_reads, List.nil_append]
  · rcases memcmp_eq (T := m.traced) hp' hq' hpx hqy hlen with ⟨m', hrun⟩
    exact ⟨_, m', hrun, (orders_iff_sameSide (apart_of_length_eq hlen)).2 hside'⟩

/-- The comparisons are those of C exactly if the first bytes that differ lie on one side of 128 and
`strncmp` is not asked to compare more of two equal strings than there is. -/
theorem compare_iff {m : ByteMem} {p q o p' q' o' n : ℕ} {s t u x y : List UInt8} (hp : p ≠ 0)
    (hq : q ≠ 0) (ho : o ≠ 0) (hp' : p' ≠ 0) (hq' : q' ≠ 0) (ho' : o' ≠ 0) (hs : 0 ∉ s)
    (ht : 0 ∉ t) (hu : 0 ∉ u) (hps : m.Holds p (s ++ [0])) (hqt : m.Holds q (t ++ [0]))
    (hou : m.Holds o (u ++ [0])) (hpx : m.Holds p' x) (hqy : m.Holds q' y)
    (hlen : x.length = y.length) :
    ComparesInOrder m p q s t n p' q' x y ∧
        CompareConsistent m p q o s t n p' q' o' x.length ↔
      SameSide (s ++ [0]) (t ++ [0]) ∧ (s = t → n ≤ s.length + 1) ∧ SameSide x y := by
  rw [and_iff_left (compareConsistent hp hq ho hp' hq' ho' hs ht hu hps hqt hou)]
  constructor
  · rintro ⟨⟨r, m', hrun, horder⟩, ⟨r2, m2, hrun2, -, k, hk, hreads⟩, r3, m3, hrun3, horder3⟩
    rcases strcmp_eq (T := m.traced) hp hq hs ht hps hqt with ⟨m1, hstrcmp⟩
    rcases memcmp_eq (T := m.traced) hp' hq' hpx hqy hlen with ⟨m4, hmemcmp⟩
    rw [hstrcmp] at hrun
    cases hrun
    rw [hmemcmp] at hrun3
    cases hrun3
    refine ⟨(orders_iff_sameSide (apart_append hs ht)).1
      ((orders_append zero_le_byte hs ht _).2 horder), ?_,
      (orders_iff_sameSide (apart_of_length_eq hlen)).1 horder3⟩
    -- more than the equal strings hold is read in more rounds
    rintro rfl
    by_contra hgt
    have hpast := strncmp_past (T := m.traced) hp hq hps hqt (by omega) hrun2
    rw [hreads, length_pairReads, ByteMem.traced_reads, List.length_nil] at hpast
    omega
  · rintro ⟨hside, hn, hside'⟩
    exact comparesInOrder hp hq hp' hq' hs ht hps hqt hpx hqy hlen hside hn hside'

/-- `a` and `b`, each with its NUL. -/
def letters (a b : UInt8) : ByteMem := ⟨1, 5, fun i => if i = 1 then a else if i = 3 then b else 0⟩

/-- "a" and "b". -/
theorem compare_letters :
    ComparesInOrder (letters 97 98) 1 3 [97] [98] 2 1 3 [97] [98] ∧
      CompareConsistent (letters 97 98) 1 3 1 [97] [98] 2 1 3 1 1 := by
  have hside : ∀ x y : List UInt8, firstDiff x y = some (97, 98) → SameSide x y := by
    intro x y h a b hab
    rw [h] at hab
    cases hab
    decide
  apply (@compare_iff (letters 97 98) 1 3 1 1 3 1 2 [97] [98] [97] [97] [98] (by decide)
    (by decide) (by decide) (by decide) (by decide) (by decide) (by decide) (by decide)
    (by decide) (by decide) (by decide) (by decide) (by decide) (by decide) rfl).2
  refine ⟨hside _ _ rfl, ?_, hside _ _ rfl⟩
  intro h
  cases h

/-- The byte 128 against the byte 1: `strcmp` answers -129. -/
theorem not_comparesInOrder : ¬ ∀ m p q s t n p' q' x y, p ≠ 0 → q ≠ 0 → p' ≠ 0 → q' ≠ 0 →
    0 ∉ s → 0 ∉ t → ByteMem.Holds m p (s ++ [0]) → m.Holds q (t ++ [0]) → m.Holds p' x →
    m.Holds q' y → x.length = y.length → ComparesInOrder m p q s t n p' q' x y := by
  intro h
  have hrun : answer (strcmp 1 3) (letters 128 1) = some (-129) := by rfl
  rcases (h (letters 128 1) 1 3 [128] [1] 1 1 3 [128] [1] (by decide) (by decide) (by decide)
    (by decide) (by decide) (by decide) (by decide) (by decide) (by decide) (by decide) rfl).strcmp
    with ⟨r, m', hstr, horder⟩
  rw [answer_of_some hstr] at hrun
  cases hrun
  exact absurd (horder.neg.1 (by decide)) (by decide)

end OsLab
