import Mathlib.Data.Nat.Digits.Lemmas
import Mathlib.Tactic.Common

/-! # Numerals

`numeral digit b n` writes `n` in base `b`, the first digit first; `padded` puts
zeros in front up to a length. A loop that divides by the base and stores digits
from the last one on computes them by `padded_step`. A reader that takes the
digits from the first one on (`eval`) gets `n` back.
-/

namespace Numeral

variable {β : Type*} (digit : ℕ → β) {b : ℕ}

/-- `n` in base `b`; nothing for 0. -/
def numeral (b n : ℕ) : List β := ((Nat.digits b n).map digit).reverse

/-- The same with zeros in front, at least `k` digits. -/
def padded (b n k : ℕ) : List β :=
  List.replicate (k - (Nat.digits b n).length) (digit 0) ++ numeral digit b n

theorem length_numeral (b n : ℕ) : (numeral digit b n).length = (Nat.digits b n).length := by
  rw [numeral, List.length_reverse, List.length_map]

theorem numeral_step (hb : 1 < b) {n : ℕ} (hn : n ≠ 0) :
    numeral digit b n = numeral digit b (n / b) ++ [digit (n % b)] := by
  rw [numeral, Nat.digits_eq_cons_digits_div hb hn, List.map_cons, List.reverse_cons]
  rfl

@[simp] theorem numeral_zero (b : ℕ) : numeral digit b 0 = [] := by
  rw [numeral, Nat.digits_zero]
  rfl

theorem padded_zero (b n : ℕ) : padded digit b n 0 = numeral digit b n := by
  rw [padded, Nat.zero_sub]
  rfl

/-- The last digit comes off. -/
theorem padded_step (hb : 1 < b) {n k : ℕ} (h : n ≠ 0 ∨ k ≠ 0) :
    padded digit b n k = padded digit b (n / b) (k - 1) ++ [digit (n % b)] := by
  unfold padded
  by_cases hn : n = 0
  · subst hn
    have hk : k = k - 1 + 1 := by omega
    rw [Nat.zero_div, Nat.zero_mod, Nat.digits_zero, List.length_nil, Nat.sub_zero, Nat.sub_zero,
      numeral_zero, List.append_nil, List.append_nil, ← List.replicate_succ', ← hk]
  · have hlen : k - (Nat.digits b n).length = k - 1 - (Nat.digits b (n / b)).length := by
      rw [Nat.digits_eq_cons_digits_div hb hn, List.length_cons]
      omega
    rw [numeral_step digit hb hn, hlen, List.append_assoc]

theorem length_padded (b n k : ℕ) :
    (padded digit b n k).length = max k (Nat.digits b n).length := by
  rw [padded, List.length_append, List.length_replicate, length_numeral]
  omega

theorem length_padded_le (hb : 1 < b) {n k j : ℕ} (hk : k ≤ j) (hn : n < b ^ j) :
    (padded digit b n k).length ≤ j := by
  have hdigits := (Nat.digits_length_le_iff hb n).2 hn
  rw [length_padded]
  omega

/-- Only digits occur. -/
theorem mem_padded (hb : 1 < b) {n k : ℕ} {c : β} (h : c ∈ padded digit b n k) :
    ∃ d < b, digit d = c := by
  rw [padded, List.mem_append] at h
  rcases h with h | h
  · exact ⟨0, by omega, (List.eq_of_mem_replicate h).symm⟩
  · rw [numeral, List.mem_reverse, List.mem_map] at h
    rcases h with ⟨d, hd, rfl⟩
    exact ⟨d, Nat.digits_lt_base hb hd, rfl⟩

theorem numeral_ne_nil {n : ℕ} (hn : n ≠ 0) : numeral digit b n ≠ [] := by
  rw [numeral, ne_eq, List.reverse_eq_nil_iff, List.map_eq_nil_iff]
  exact Nat.digits_ne_nil_iff_ne_zero.2 hn

/-- No numeral begins with a zero. -/
theorem numeral_eq_cons (hb : 1 < b) {n : ℕ} (hn : n ≠ 0) :
    ∃ d l, d ≠ 0 ∧ d < b ∧ numeral digit b n = digit d :: l := by
  induction n using Nat.strong_induction_on with
  | _ n ih =>
      by_cases hdiv : n / b = 0
      · have hlt : n < b := (Nat.div_eq_zero_iff_lt (by omega)).1 hdiv
        refine ⟨n, [], hn, hlt, ?_⟩
        rw [numeral_step digit hb hn, hdiv, numeral_zero, Nat.mod_eq_of_lt hlt, List.nil_append]
      · rcases ih (n / b) (Nat.div_lt_self (Nat.pos_of_ne_zero hn) hb) hdiv with ⟨d, l, h0, hd, hl⟩
        refine ⟨d, l ++ [digit (n % b)], h0, hd, ?_⟩
        rw [numeral_step digit hb hn, hl, List.cons_append]

/-- The zeros in front are the padding. -/
theorem takeWhile_padded [DecidableEq β] (hb : 1 < b) (hdigit : ∀ d < b, digit d = digit 0 → d = 0)
    (n k : ℕ) : (padded digit b n k).takeWhile (fun c => c = digit 0) =
      List.replicate (k - (Nat.digits b n).length) (digit 0) := by
  have hnumeral : (numeral digit b n).takeWhile (fun c => c = digit 0) = [] := by
    by_cases hn : n = 0
    · rw [hn, numeral_zero, List.takeWhile_nil]
    · rcases numeral_eq_cons digit hb hn with ⟨d, l, h0, hd, hl⟩
      rw [hl, List.takeWhile_cons_of_neg]
      rw [decide_eq_true_eq]
      exact mt (hdigit d hd) h0
  rw [padded, List.takeWhile_append_of_pos, hnumeral, List.append_nil]
  intro c hc
  rw [decide_eq_true_eq]
  exact List.eq_of_mem_replicate hc

/-! ## Reading -/

/-- The value of a numeral, read from its first character on; `none` at a character that is no
digit. -/
def eval (value : β → Option ℕ) (b : ℕ) (l : List β) : Option ℕ :=
  l.foldlM (fun n c => (value c).map fun d => b * n + d) 0

theorem eval_concat (value : β → Option ℕ) (b : ℕ) (l : List β) (c : β) :
    eval value b (l ++ [c]) =
      (eval value b l).bind fun n => (value c).map fun d => b * n + d := by
  unfold eval
  rw [List.foldlM_append]
  simp only [List.foldlM_cons, List.foldlM_nil, bind_pure]
  rfl

/-- Reading a numeral gives the number back. -/
theorem eval_padded {value : β → Option ℕ} (hb : 1 < b) (hvalue : ∀ d < b, value (digit d) = some d)
    (n k : ℕ) : eval value b (padded digit b n k) = some n := by
  -- each step takes the last digit off, or a zero of the padding
  induction hm : n + k using Nat.strong_induction_on generalizing n k with
  | _ m ih =>
      by_cases h : n ≠ 0 ∨ k ≠ 0
      · have hdiv : n / b ≤ n := Nat.div_le_self n b
        have hlt : n / b + (k - 1) < m := by
          rcases h with h | h
          · have := Nat.div_lt_self (Nat.pos_of_ne_zero h) hb
            omega
          · omega
        rw [padded_step digit hb h, eval_concat, ih _ hlt _ _ rfl, Option.bind_some,
          hvalue _ (Nat.mod_lt _ (by omega)), Option.map_some, Nat.div_add_mod]
      · rw [not_or, not_not, not_not] at h
        rw [h.1, h.2, padded_zero, numeral_zero]
        rfl

end Numeral
