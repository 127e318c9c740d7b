import OsLab.Klib.Trace
import OsLab.Lib.Numeral

/-! # `_itos` of the C library of the kernel (`klib/src/stdio.c`)

The digits are stored from the last one on, each one address below the one
before. `length` counts the digits that are still due; it may fall below zero,
and then the loop goes on as long as `val` is not 0.
-/

namespace OsLab

open Numeral

/-- `table`. -/
def itosTable : List UInt8 := [48, 49, 50, 51, 52, 53, 54, 55, 56, 57, 65, 66, 67, 68, 69, 70]

/-- `--end; *end = b;` -/
def pushByte (b : UInt8) : ℕ × TraceMem → Option (ℕ × TraceMem)
  | (0, _) => none
  | (e + 1, t) => (t.store e b).map fun t' => (e, t')

/-- `while (val != 0 || length)`. -/
def itosLoop (base : UInt64) : ℕ → UInt64 → ℤ → TraceMem → Option (ℕ × TraceMem)
  | e, val, length, t =>
    if val ≠ 0 ∨ length ≠ 0 then
      if val = 0 ∧ length < 0 then some (e, t)
      else
        match e with
        | 0 => none
        | e + 1 => itosTable[(val % base).toNat]?.bind fun digit =>
            (t.store e digit).bind fun t' => itosLoop base e (val / base) (length - 1) t'
    else some (e, t)

/-- `_itos`, with `base` converted to `uint64_t` as the arithmetic does it. -/
def itos (val : UInt64) (last : ℕ) (base : UInt64) (length : ℤ) (t : TraceMem) :
    Option (ℕ × TraceMem) :=
  (t.store last 0).bind fun t => (itosLoop base last val length t).bind fun r =>
    -- "0x", from its end
    if base = 16 then (pushByte 120 r).bind (pushByte 48) else some r

/-- The character of a digit. -/
def digitByte (d : ℕ) : UInt8 := UInt8.ofNat (if d < 10 then 48 + d else 55 + d)

theorem itosTable_eq {d : ℕ} (h : d < 16) : itosTable[d]? = some (digitByte d) := by
  revert d
  decide

theorem digitByte_ne {d : ℕ} (h : d < 16) : digitByte d ≠ 0 ∧ digitByte d ≠ 45 := by
  revert d
  decide

/-- What lies in `t'` after the bytes `x` have been stored below `e` on top of `t`. -/
structure Pushed (t t' : TraceMem) (e : ℕ) (x : List UInt8) : Prop where
  start : t'.mem.start = t.mem.start
  stop : t'.mem.stop = t.mem.stop
  holds : ∀ y, t.mem.Holds e y → t'.mem.Holds (e - x.length) (x ++ y)
  writes : t'.writes = t.writes ++ (List.range' (e - x.length) x.length).reverse

theorem Pushed.refl (t : TraceMem) (e : ℕ) : Pushed t t e [] where
  start := rfl
  stop := rfl
  holds _ h := h
  writes := by
    rw [List.length_nil, List.range'_zero, List.reverse_nil, List.append_nil]

theorem Pushed.trans {t t' t'' : TraceMem} {e : ℕ} {x y : List UInt8} (h : Pushed t t' e x)
    (h' : Pushed t' t'' (e - x.length) y) (hle : y.length + x.length ≤ e) :
    Pushed t t'' e (y ++ x) := by
  have hlen : e - (y ++ x).length = e - x.length - y.length := by
    rw [List.length_append]
    omega
  constructor
  · rw [h'.start, h.start]
  · rw [h'.stop, h.stop]
  · intro z hz
    rw [hlen, List.append_assoc]
    exact h'.holds _ (h.holds z hz)
  · have hrange := @List.range'_append_1 (e - x.length - y.length) y.length x.length
    rw [Nat.sub_add_cancel (by omega)] at hrange
    rw [h'.writes, h.writes, hlen, List.length_append, ← hrange, List.reverse_append,
      List.append_assoc]

/-- One store below `e + 1`. -/
theorem pushed_store {t : TraceMem} {e : ℕ} {b : UInt8} (hin : t.mem.Inside e 1) :
    ∃ t', t.store e b = some t' ∧ Pushed t t' (e + 1) [b] := by
  refine ⟨_, TraceMem.store_inside hin, ByteMem.put_start .., ByteMem.put_stop .., ?_, rfl⟩
  intro y hy
  refine ⟨ByteMem.put_inside.2 hin, ByteMem.put_byte (x := [b]) (i := 0) Nat.one_pos, ?_⟩
  apply hy.congr (ByteMem.put_start ..) (ByteMem.put_stop ..)
  intro a ha _
  exact ByteMem.put_frame (Or.inr ha)

theorem pushByte_eq {t : TraceMem} {e : ℕ} {b : UInt8} (hlo : t.mem.start < e)
    (hhi : e ≤ t.mem.stop) : ∃ t', pushByte b (e, t) = some (e - 1, t') ∧ Pushed t t' e [b] := by
  cases e with
  | zero => exact absurd hlo (Nat.not_lt_zero _)
  | succ e =>
      rcases pushed_store (t := t) (e := e) (b := b) ⟨by omega, hhi⟩ with ⟨t', hstore, hpush⟩
      rw [pushByte, hstore]
      exact ⟨t', rfl, hpush⟩

theorem itosLoop_stop {base val : UInt64} {e : ℕ} {length : ℤ} {t : TraceMem}
    (hval : val.toNat = 0) (hlength : length.toNat = 0) :
    itosLoop base e val length t = some (e, t) := by
  have hzero : val = 0 := UInt64.toNat.inj hval
  unfold itosLoop
  by_cases hgo : val ≠ 0 ∨ length ≠ 0
  · have hneg : length < 0 := by
      rcases hgo with h | h
      · exact absurd hzero h
      · omega
    rw [if_pos hgo, if_pos ⟨hzero, hneg⟩]
  · rw [if_neg hgo]

theorem itosLoop_go {base val : UInt64} {e : ℕ} {length : ℤ} {t : TraceMem}
    (hbase : 1 < base.toNat) (hbase' : base.toNat ≤ 16)
    (h : val.toNat ≠ 0 ∨ length.toNat ≠ 0) :
    itosLoop base (e + 1) val length t =
      (t.store e (digitByte (val.toNat % base.toNat))).bind fun t' =>
        itosLoop base e (val / base) (length - 1) t' := by
  have hgo : val ≠ 0 ∨ length ≠ 0 := by
    rcases h with h | h
    · left
      rintro rfl
      exact h rfl
    · right
      omega
  have hstay : ¬ (val = 0 ∧ length < 0) := by
    rintro ⟨rfl, hneg⟩
    rcases h with h | h
    · exact h rfl
    · omega
  have hdigit : val.toNat % base.toNat < 16 := lt_of_lt_of_le (Nat.mod_lt _ (by omega)) hbase'
  rw [itosLoop, if_pos hgo, if_neg hstay]
  simp only [UInt64.toNat_mod, itosTable_eq hdigit, Option.bind_some]

/-- The loop stores the numeral of `val`, with at least `length` digits. -/
theorem itosLoop_eq {base val : UInt64} {e : ℕ} {length : ℤ} {t : TraceMem}
    (hbase : 1 < base.toNat) (hbase' : base.toNat ≤ 16) (hhi : e ≤ t.mem.stop)
    (hlo : t.mem.start + (padded digitByte base.toNat val.toNat length.toNat).length ≤ e) :
    ∃ t', itosLoop base e val length t =
        some (e - (padded digitByte base.toNat val.toNat length.toNat).length, t') ∧
      Pushed t t' e (padded digitByte base.toNat val.toNat length.toNat) := by
  induction e generalizing val length t with
  | zero =>
      by_cases hgo : val.toNat ≠ 0 ∨ length.toNat ≠ 0
      · rw [padded_step digitByte hbase hgo, List.length_append, List.length_singleton] at hlo
        omega
      · rw [not_or, not_not, not_not] at hgo
        rw [hgo.1, hgo.2, padded_zero, numeral_zero, itosLoop_stop hgo.1 hgo.2]
        exact ⟨t, rfl, Pushed.refl t 0⟩
  | succ e ih =>
      by_cases hgo : val.toNat ≠ 0 ∨ length.toNat ≠ 0
      · have hstep : padded digitByte base.toNat val.toNat length.toNat =
            padded digitByte base.toNat (val / base).toNat (length - 1).toNat ++
              [digitByte (val.toNat % base.toNat)] := by
          rw [padded_step digitByte hbase hgo, UInt64.toNat_div]
          congr 2
          omega
        rw [hstep, List.length_append, List.length_singleton] at hlo
        rcases @pushed_store t e (digitByte (val.toNat % base.toNat)) ⟨by omega, hhi⟩ with
          ⟨t1, hstore, hpush⟩
        rcases @ih (val / base) (length - 1) t1 (by rw [hpush.stop]; omega)
          (by rw [hpush.start]; omega) with ⟨t', hrun, hpush'⟩
        rw [itosLoop_go hbase hbase' hgo, hstore, Option.bind_some, hrun, hstep]
        refine ⟨t', ?_, hpush.trans hpush' (by rw [List.length_singleton]; omega)⟩
        rw [List.length_append, List.length_singleton, Nat.add_sub_add_right]
      · rw [not_or, not_not, not_not] at hgo
        rw [hgo.1, hgo.2, padded_zero, numeral_zero, itosLoop_stop hgo.1 hgo.2]
        exact ⟨t, rfl, Pushed.refl t _⟩

/-- What `_itos` stores before the NUL. -/
def itosText (val base : UInt64) (length : ℤ) : List UInt8 :=
  (if base = 16 then [48, 120] else []) ++
    padded digitByte base.toNat val.toNat length.toNat

/-- `_itos` answers where the text begins that ends with the NUL at `last`. -/
theorem itos_eq {val base : UInt64} {last : ℕ} {length : ℤ} {t : TraceMem}
    (hbase : 1 < base.toNat) (hbase' : base.toNat ≤ 16) (hhi : last < t.mem.stop)
    (hlo : t.mem.start + (itosText val base length).length ≤ last) :
    ∃ t', itos val last base length t = some (last - (itosText val base length).length, t') ∧
      t'.mem.start = t.mem.start ∧ t'.mem.stop = t.mem.stop ∧
      t'.mem.Holds (last - (itosText val base length).length) (itosText val base length ++ [0]) ∧
      t'.writes = t.writes ++ [last] ++ (List.range' (last - (itosText val base length).length)
        (itosText val base length).length).reverse := by
  rcases @pushed_store t last 0 ⟨by omega, hhi⟩ with ⟨t0, hstore, hnul⟩
  have hend : t0.mem.Holds last [0] := hnul.holds [] trivial
  have hwrites : t0.writes = t.writes ++ [last] := hnul.writes
  have htext : (itosText val base length).length = (if base = 16 then 2 else 0) +
      (padded digitByte base.toNat val.toNat length.toNat).length := by
    unfold itosText
    split
    · rw [List.length_append]
      rfl
    · rw [List.nil_append, Nat.zero_add]
  rcases @itosLoop_eq base val last length t0 hbase hbase' (by rw [hnul.stop]; omega)
    (by rw [hnul.start]; omega) with ⟨t1, hloop, hpush⟩
  -- the digits are there; what is left is the "0x"
  suffices hsuff : ∃ t', itos val last base length t =
      some (last - (itosText val base length).length, t') ∧
        Pushed t0 t' last (itosText val base length) by
    rcases hsuff with ⟨t', hrun, h⟩
    refine ⟨t', hrun, ?_, ?_, h.holds _ hend, ?_⟩
    · rw [h.start, hnul.start]
    · rw [h.stop, hnul.stop]
    · rw [h.writes, hwrites]
  rw [itos, hstore, Option.bind_some, hloop, Option.bind_some, htext]
  unfold itosText
  by_cases h16 : base = 16
  · rw [if_pos h16] at htext
    rw [if_pos h16, if_pos h16, if_pos h16]
    rcases @pushByte_eq t1 (last - (padded digitByte base.toNat val.toNat length.toNat).length) 120
      (by rw [hpush.start, hnul.start]; omega) (by rw [hpush.stop, hnul.stop]; omega) with
      ⟨t2, hx, hpush2⟩
    rcases @pushByte_eq t2 (last - (padded digitByte base.toNat val.toNat length.toNat).length - 1)
      48 (by rw [hpush2.start, hpush.start, hnul.start]; omega)
      (by rw [hpush2.stop, hpush.stop, hnul.stop]; omega) with ⟨t3, h0, hpush3⟩
    rw [hx, Option.bind_some, h0]
    refine ⟨t3, ?_, ?_⟩
    · congr 2
      omega
    · have hpair := hpush2.trans hpush3 (show 1 + 1 ≤ _ by omega)
      exact hpush.trans hpair (show 2 + _ ≤ _ by omega)
  · rw [if_neg h16, if_neg h16, if_neg h16, Nat.zero_add, List.nil_append]
    exact ⟨t1, rfl, hpush⟩

/-- There is room for every value in the 50 bytes of `s`. -/
theorem length_itosText_dec (val : UInt64) : (itosText val 10 (-1)).length ≤ 49 := by
  have hval := val.toNat_lt
  have hlen := @length_padded_le _ digitByte 10 (by decide) val.toNat 0 20 (by decide) (by omega)
  unfold itosText
  rw [if_neg (by decide), List.nil_append]
  exact hlen.trans (by decide)

theorem length_itosText_hex (val : UInt64) : (itosText val 16 8).length ≤ 49 := by
  have hval := val.toNat_lt
  have hlen := @length_padded_le _ digitByte 16 (by decide) val.toNat 8 16 (by decide) (by omega)
  unfold itosText
  rw [if_pos rfl, List.length_append]
  exact (Nat.add_le_add_left hlen _).trans (by decide)

/-! ## Exactness -/

/-- What a digit stands for. -/
def digitValue (c : UInt8) : Option ℕ :=
  if '0'.toUInt8 ≤ c ∧ c ≤ '9'.toUInt8 then some (c.toNat - '0'.toNat)
  else if 'A'.toUInt8 ≤ c ∧ c ≤ 'F'.toUInt8 then some (c.toNat - 'A'.toNat + 10)
  else none

theorem digitValue_digitByte {d : ℕ} (h : d < 16) : digitValue (digitByte d) = some d := by
  revert d
  decide

theorem digitByte_eq_zero {d : ℕ} (h : d < 16) (hd : digitByte d = digitByte 0) : d = 0 := by
  have hvalue := digitValue_digitByte h
  rw [hd, digitValue_digitByte (by decide)] at hvalue
  exact (Option.some.inj hvalue).symm

/-- The two ways in which `vsprintf` calls `_itos`. -/
def ItosCall (val base : UInt64) (length : ℤ) : Prop :=
  base = 10 ∧ length = -1 ∧ 0 < val ∨ base = 16 ∧ length = 8

/-- `_itos` answered `p` and left the digits `digits` before the NUL at the last byte of the
scratch buffer, the 50 bytes from `s` on. -/
structure ItosExact (val base : UInt64) (length : ℤ) (s : ℕ) (digits : List UInt8) (p : ℕ)
    (t : TraceMem) : Prop where
  /-- with the "0x" of base 16 -/
  text : t.mem.Holds p ((if base = 16 then [48, 120] else []) ++ digits ++ [0])
  ends : p + ((if base = 16 then [48, 120] else []) ++ digits).length = s + 49
  value : eval digitValue base.toNat digits = some val.toNat
  number : digits.length = max (Nat.digits base.toNat val.toNat).length length.toNat
  /-- the zeros in front are those that `length` asks for -/
  zeros : (digits.takeWhile fun c => c = '0'.toUInt8).length =
    length.toNat - (Nat.digits base.toNat val.toNat).length
  writes : ∀ a ∈ t.writes, s ≤ a ∧ a < s + 50

theorem ItosCall.bounds {val base : UInt64} {length : ℤ} (h : ItosCall val base length) :
    1 < base.toNat ∧ base.toNat ≤ 16 ∧ (itosText val base length).length ≤ 49 := by
  rcases h with ⟨rfl, rfl, -⟩ | ⟨rfl, rfl⟩
  · exact ⟨by decide, by decide, length_itosText_dec val⟩
  · exact ⟨by decide, by decide, length_itosText_hex val⟩

/-- For every 64-bit value, `_itos` comes back with the numeral of the value. -/
theorem itosExact {val base : UInt64} {length : ℤ} {s : ℕ} {m : ByteMem}
    (hcall : ItosCall val base length) (hs : m.Inside s 50) :
    ∃ p t digits, itos val (s + 49) base length m.traced = some (p, t) ∧
      ItosExact val base length s digits p t := by
  rcases hcall.bounds with ⟨hbase, hbase', hlen⟩
  unfold ByteMem.Inside at hs
  rcases @itos_eq val base (s + 49) length m.traced hbase hbase' (by rw [ByteMem.traced_mem]; omega)
    (by rw [ByteMem.traced_mem]; omega) with ⟨t, hrun, -, -, hholds, hwrites⟩
  refine ⟨_, t, padded digitByte base.toNat val.toNat length.toNat, hrun, ?_⟩
  constructor
  · exact hholds
  · exact Nat.sub_add_cancel (hlen.trans (Nat.le_add_left _ _))
  · exact eval_padded digitByte hbase
      (fun d hd => digitValue_digitByte (hd.trans_le hbase')) _ _
  · rw [length_padded, max_comm]
  · have hzero : '0'.toUInt8 = digitByte 0 := by decide
    rw [hzero, takeWhile_padded digitByte hbase
      fun d hd => digitByte_eq_zero (hd.trans_le hbase'), List.length_replicate]
  · intro a ha
    rw [hwrites, ByteMem.traced_writes, List.nil_append, List.mem_append, List.mem_singleton,
      List.mem_reverse, List.mem_range'_1] at ha
    omega

/-- The largest value, in hexadecimal digits. -/
theorem itosExact_max : ∃ p t digits,
    itos 0xFFFFFFFFFFFFFFFF (1 + 49) 16 8 (ByteMem.traced ⟨1, 51, fun _ => 0⟩) = some (p, t) ∧
      ItosExact 0xFFFFFFFFFFFFFFFF 16 8 1 digits p t :=
  itosExact (Or.inr ⟨rfl, rfl⟩) (by decide)

end OsLab
