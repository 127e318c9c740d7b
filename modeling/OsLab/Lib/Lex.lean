import Mathlib.Algebra.Order.Ring.Int
import Mathlib.Data.List.Lex
import Mathlib.Order.Basic
import Mathlib.Tactic.Common

/-! # Comparing lists by their first difference

`diffBy f x y` is what a comparison routine answers that walks along two lists and
returns the difference of the values `f` of the first two elements that differ.
Its sign is a lexicographic order, that of the values `f`; it is the order of
the elements themselves exactly if `f` keeps the order of those two.
-/

namespace Lex

section FirstDiff

variable {β : Type*} [DecidableEq β]

/-- The first two elements that differ, up to the end of the shorter list. -/
def firstDiff : List β → List β → Option (β × β)
  | a :: x, b :: y => if a = b then firstDiff x y else some (a, b)
  | _, _ => none

/-- Neither list is a proper prefix of the other. -/
def Apart (x y : List β) : Prop := firstDiff x y = none → x = y

theorem firstDiff_cons_self (a : β) (x y : List β) :
    firstDiff (a :: x) (a :: y) = firstDiff x y := by
  rw [firstDiff, if_pos rfl]

theorem firstDiff_cons_of_ne {a b : β} (h : a ≠ b) (x y : List β) :
    firstDiff (a :: x) (b :: y) = some (a, b) := by
  rw [firstDiff, if_neg h]

theorem firstDiff_nil_right (x : List β) : firstDiff x [] = none := by
  cases x <;> rfl

theorem firstDiff_self (x : List β) : firstDiff x x = none := by
  induction x with
  | nil => rfl
  | cons a x ih => rw [firstDiff_cons_self, ih]

theorem ne_of_firstDiff {x y : List β} {a b : β} (h : firstDiff x y = some (a, b)) : a ≠ b := by
  induction x generalizing y with
  | nil => cases h
  | cons c x ih =>
      cases y with
      | nil => cases h
      | cons d y =>
          by_cases hcd : c = d
          · subst hcd
            rw [firstDiff_cons_self] at h
            exact ih h
          · rw [firstDiff_cons_of_ne hcd] at h
            cases h
            exact hcd

theorem firstDiff_comm (x y : List β) : firstDiff y x = (firstDiff x y).map Prod.swap := by
  induction x generalizing y with
  | nil => rw [firstDiff_nil_right]; rfl
  | cons a x ih =>
      cases y with
      | nil => rfl
      | cons b y =>
          by_cases hab : a = b
          · subst hab
            rw [firstDiff_cons_self, firstDiff_cons_self, ih]
          · rw [firstDiff_cons_of_ne hab, firstDiff_cons_of_ne (Ne.symm hab)]
            rfl

/-- What follows two lists of one length does not matter once they differ. -/
theorem firstDiff_append {x y : List β} (hlen : x.length = y.length) (hne : x ≠ y)
    (u v : List β) : firstDiff (x ++ u) (y ++ v) = firstDiff x y := by
  induction x generalizing y with
  | nil => exact absurd (List.length_eq_zero_iff.1 hlen.symm).symm hne
  | cons a x ih =>
      cases y with
      | nil => cases hlen
      | cons b y =>
          rw [List.cons_append, List.cons_append]
          by_cases hab : a = b
          · subst hab
            rw [firstDiff_cons_self, firstDiff_cons_self]
            apply ih (Nat.succ.inj hlen)
            rintro rfl
            exact hne rfl
          · rw [firstDiff_cons_of_ne hab, firstDiff_cons_of_ne hab]

/-- A cut behind the end of the shorter list changes nothing. -/
theorem firstDiff_take {x y : List β} {n : ℕ} (hn : min x.length y.length ≤ n) :
    firstDiff (x.take n) (y.take n) = firstDiff x y := by
  induction x generalizing y n with
  | nil => rw [List.take_nil]; rfl
  | cons a x ih =>
      cases y with
      | nil => rw [List.take_nil, firstDiff_nil_right, firstDiff_nil_right]
      | cons b y =>
          rw [List.length_cons, List.length_cons] at hn
          cases n with
          | zero => omega
          | succ n =>
              rw [List.take_succ_cons, List.take_succ_cons]
              by_cases hab : a = b
              · subst hab
                rw [firstDiff_cons_self, firstDiff_cons_self, ih (by omega)]
              · rw [firstDiff_cons_of_ne hab, firstDiff_cons_of_ne hab]

/-- A difference before the cut is the first one of the whole lists. -/
theorem firstDiff_of_take {x y : List β} {n : ℕ} {a b : β}
    (h : firstDiff (x.take n) (y.take n) = some (a, b)) : firstDiff x y = some (a, b) := by
  induction x generalizing y n with
  | nil => rw [List.take_nil] at h; cases h
  | cons c x ih =>
      cases y with
      | nil => rw [List.take_nil, firstDiff_nil_right] at h; cases h
      | cons d y =>
          cases n with
          | zero => cases h
          | succ n =>
              rw [List.take_succ_cons, List.take_succ_cons] at h
              by_cases hcd : c = d
              · subst hcd
                rw [firstDiff_cons_self] at h ⊢
                exact ih h
              · rw [firstDiff_cons_of_ne hcd] at h ⊢
                exact h

theorem apart_symm {x y : List β} (h : Apart x y) : Apart y x := by
  intro hnone
  rw [firstDiff_comm, Option.map_eq_none_iff] at hnone
  exact (h hnone).symm

theorem apart_cons {a : β} {x y : List β} (h : Apart x y) : Apart (a :: x) (a :: y) := by
  intro hnone
  rw [firstDiff_cons_self] at hnone
  rw [h hnone]

theorem apart_cons_of_ne {a b : β} (h : a ≠ b) (x y : List β) : Apart (a :: x) (b :: y) := by
  intro hnone
  rw [firstDiff_cons_of_ne h] at hnone
  cases hnone

theorem apart_of_length_eq {x y : List β} (h : x.length = y.length) : Apart x y := by
  induction x generalizing y with
  | nil =>
      intro _
      exact (List.length_eq_zero_iff.1 h.symm).symm
  | cons a x ih =>
      cases y with
      | nil => cases h
      | cons b y =>
          by_cases hab : a = b
          · subst hab
            exact apart_cons (ih (Nat.succ.inj h))
          · exact apart_cons_of_ne hab x y

/-- Two lists that end in the first `z`, both cut to `n` elements. -/
theorem apart_take {z : β} {s t : List β} (hs : z ∉ s) (ht : z ∉ t) (n : ℕ) :
    Apart ((s ++ [z]).take n) ((t ++ [z]).take n) := by
  induction n generalizing s t with
  | zero => exact fun _ => rfl
  | succ n ih =>
      cases s with
      | nil =>
          cases t with
          | nil => exact fun _ => rfl
          | cons b t =>
              apply apart_cons_of_ne
              rintro rfl
              exact ht List.mem_cons_self
      | cons a s =>
          cases t with
          | nil =>
              apply apart_cons_of_ne
              rintro rfl
              exact hs List.mem_cons_self
          | cons b t =>
              by_cases hab : a = b
              · subst hab
                exact apart_cons (ih (fun h => hs (List.mem_cons_of_mem _ h))
                  fun h => ht (List.mem_cons_of_mem _ h))
              · exact apart_cons_of_ne hab _ _

theorem apart_append {z : β} {s t : List β} (hs : z ∉ s) (ht : z ∉ t) :
    Apart (s ++ [z]) (t ++ [z]) := by
  have h := apart_take hs ht (s.length + t.length + 1)
  rwa [List.take_of_length_le (by simp), List.take_of_length_le (by simp)] at h

end FirstDiff

section Order

variable {β γ : Type*}

/-- The sign of `r` is the order of `x` and `y`. -/
structure Orders [LT γ] (r : ℤ) (x y : γ) : Prop where
  eq_zero : r = 0 ↔ x = y
  neg : r < 0 ↔ x < y
  pos : 0 < r ↔ y < x

variable [LinearOrder γ]

/-- The first difference decides the order of the values. -/
theorem map_lt_map_iff [DecidableEq β] {f : β → γ} (hf : Function.Injective f) {x y : List β}
    {a b : β} (h : firstDiff x y = some (a, b)) : x.map f < y.map f ↔ f a < f b := by
  induction x generalizing y with
  | nil => cases h
  | cons c x ih =>
      cases y with
      | nil => cases h
      | cons d y =>
          rw [List.map_cons, List.map_cons, List.cons_lt_cons_iff]
          by_cases hcd : c = d
          · subst hcd
            rw [firstDiff_cons_self] at h
            rw [← ih h]
            simp
          · rw [firstDiff_cons_of_ne hcd] at h
            cases h
            have hne : f a ≠ f b := fun heq => hcd (hf heq)
            simp [hne]

theorem lt_iff_of_firstDiff [DecidableEq γ] {x y : List γ} {a b : γ}
    (h : firstDiff x y = some (a, b)) : x < y ↔ a < b := by
  simpa using map_lt_map_iff Function.injective_id h

theorem take_append_lt_iff {z : γ} (hz : ∀ a, z ≤ a) {s t : List γ} (hs : z ∉ s) (ht : z ∉ t)
    (n : ℕ) : (s ++ [z]).take n < (t ++ [z]).take n ↔ s.take n < t.take n := by
  induction n generalizing s t with
  | zero => rw [List.take_zero, List.take_zero, List.take_zero, List.take_zero]
  | succ n ih =>
      cases s with
      | nil =>
          cases t with
          | nil =>
              exact iff_of_false (List.lt_irrefl _) (List.lt_irrefl _)
          | cons b t =>
              have hzb : z < b := lt_of_le_of_ne (hz b) fun h => ht (h ▸ List.mem_cons_self)
              exact iff_of_true (List.cons_lt_cons_iff.2 (Or.inl hzb)) (List.nil_lt_cons _ _)
      | cons a s =>
          cases t with
          | nil =>
              have hza : z < a := lt_of_le_of_ne (hz a) fun h => hs (h ▸ List.mem_cons_self)
              apply iff_of_false
              · intro hlt
                rcases List.cons_lt_cons_iff.1 hlt with h | ⟨h, -⟩
                · exact absurd h (not_lt_of_ge (hz a))
                · exact hza.ne h.symm
              · exact List.not_lt_nil _
          | cons b t =>
              rw [List.cons_append, List.cons_append, List.take_succ_cons, List.take_succ_cons,
                List.take_succ_cons, List.take_succ_cons, List.cons_lt_cons_iff,
                List.cons_lt_cons_iff, ih (fun h => hs (List.mem_cons_of_mem _ h))
                  fun h => ht (List.mem_cons_of_mem _ h)]

/-- An end mark that is below everything keeps the order, also that of the cut lists. -/
theorem orders_take_append {z : γ} (hz : ∀ a, z ≤ a) {s t : List γ} (hs : z ∉ s) (ht : z ∉ t)
    (r : ℤ) (n : ℕ) :
    Orders r ((s ++ [z]).take n) ((t ++ [z]).take n) ↔ Orders r (s.take n) (t.take n) := by
  have hlt := take_append_lt_iff hz hs ht n
  have hgt := take_append_lt_iff hz ht hs n
  have heq : (s ++ [z]).take n = (t ++ [z]).take n ↔ s.take n = t.take n := by
    rw [eq_iff_le_not_lt, eq_iff_le_not_lt, ← not_lt, ← not_lt, hlt, hgt]
  constructor
  · intro h
    exact ⟨h.eq_zero.trans heq, h.neg.trans hlt, h.pos.trans hgt⟩
  · intro h
    exact ⟨h.eq_zero.trans heq.symm, h.neg.trans hlt.symm, h.pos.trans hgt.symm⟩

theorem orders_append {z : γ} (hz : ∀ a, z ≤ a) {s t : List γ} (hs : z ∉ s) (ht : z ∉ t)
    (r : ℤ) : Orders r (s ++ [z]) (t ++ [z]) ↔ Orders r s t := by
  have h := orders_take_append hz hs ht r (s.length + t.length + 1)
  have hs' := @List.length_append _ s [z]
  have ht' := @List.length_append _ t [z]
  rw [List.length_singleton] at hs' ht'
  rwa [List.take_of_length_le (by omega), List.take_of_length_le (by omega),
    List.take_of_length_le (by omega), List.take_of_length_le (by omega)] at h

end Order

section DiffBy

variable {β : Type*} [DecidableEq β]

/-- The difference of the values at the first place where the lists differ. -/
def diffBy (f : β → ℤ) (x y : List β) : ℤ :=
  match firstDiff x y with
  | none => 0
  | some (a, b) => f a - f b

variable {f : β → ℤ} {x y z : List β}

theorem diffBy_of_none (h : firstDiff x y = none) : diffBy f x y = 0 := by
  rw [diffBy, h]

theorem diffBy_of_some {a b : β} (h : firstDiff x y = some (a, b)) :
    diffBy f x y = f a - f b := by
  rw [diffBy, h]

theorem diffBy_self (f : β → ℤ) (x : List β) : diffBy f x x = 0 :=
  diffBy_of_none (firstDiff_self x)

theorem diffBy_comm (f : β → ℤ) (x y : List β) : diffBy f y x = -diffBy f x y := by
  cases h : firstDiff x y with
  | none =>
      rw [diffBy_of_none h, diffBy_of_none]
      · rfl
      · rw [firstDiff_comm, h]
        rfl
  | some d =>
      rcases d with ⟨a, b⟩
      rw [diffBy_of_some h, diffBy_of_some (a := b) (b := a)]
      · omega
      · rw [firstDiff_comm, h]
        rfl

theorem diffBy_eq_zero_iff (hf : Function.Injective f) (hxy : Apart x y) :
    diffBy f x y = 0 ↔ x = y := by
  constructor
  · intro h
    apply hxy
    cases hd : firstDiff x y with
    | none => rfl
    | some d =>
        rcases d with ⟨a, b⟩
        rw [diffBy_of_some hd] at h
        exact absurd (hf (by omega)) (ne_of_firstDiff hd)
  · rintro rfl
    exact diffBy_self f x

theorem diffBy_neg_iff (hf : Function.Injective f) (hxy : Apart x y) :
    diffBy f x y < 0 ↔ x.map f < y.map f := by
  cases hd : firstDiff x y with
  | none =>
      obtain rfl := hxy hd
      rw [diffBy_self]
      exact iff_of_false (lt_irrefl _) (List.lt_irrefl _)
  | some d =>
      rcases d with ⟨a, b⟩
      rw [diffBy_of_some hd, map_lt_map_iff hf hd]
      omega

/-- The sign is the order of the values. -/
theorem orders_map (hf : Function.Injective f) (hxy : Apart x y) :
    Orders (diffBy f x y) (x.map f) (y.map f) := by
  constructor
  · rw [diffBy_eq_zero_iff hf hxy, (List.map_injective_iff.2 hf).eq_iff]
  · exact diffBy_neg_iff hf hxy
  · have hcomm := diffBy_comm f x y
    rw [← diffBy_neg_iff hf (apart_symm hxy), hcomm]
    omega

/-- So it is transitive. -/
theorem diffBy_trans (hf : Function.Injective f) (hxy : Apart x y) (hyz : Apart y z)
    (hxz : Apart x z) (h1 : diffBy f x y ≤ 0) (h2 : diffBy f y z ≤ 0) :
    diffBy f x z ≤ 0 ∧ (diffBy f x z = 0 → diffBy f x y = 0 ∧ diffBy f y z = 0) := by
  have horder := orders_map hf hxz
  rcases eq_or_lt_of_le h1 with heq | hlt
  · obtain rfl := (diffBy_eq_zero_iff hf hxy).1 heq
    exact ⟨h2, fun h => ⟨heq, h⟩⟩
  · rcases eq_or_lt_of_le h2 with heq' | hlt'
    · obtain rfl := (diffBy_eq_zero_iff hf hyz).1 heq'
      exact ⟨h1, fun h => ⟨h, heq'⟩⟩
    · have hmap := lt_trans ((diffBy_neg_iff hf hxy).1 hlt) ((diffBy_neg_iff hf hyz).1 hlt')
      have hneg := horder.neg.2 hmap
      exact ⟨hneg.le, fun h => absurd h hneg.ne⟩

end DiffBy

/-- The sign is the order of the elements exactly if `f` keeps the order of the first two that
differ. -/
theorem orders_diffBy_iff {β : Type*} [LinearOrder β] [DecidableEq β] {f : β → ℤ}
    (hf : Function.Injective f) {x y : List β} (hxy : Apart x y) :
    Orders (diffBy f x y) x y ↔
      ∀ a b, firstDiff x y = some (a, b) → (f a < f b ↔ a < b) := by
  constructor
  · intro h a b hd
    rw [← lt_iff_of_firstDiff hd, ← h.neg, diffBy_of_some hd]
    omega
  · intro h
    cases hd : firstDiff x y with
    | none =>
        obtain rfl := hxy hd
        rw [diffBy_self]
        exact ⟨iff_of_true rfl rfl, iff_of_false (lt_irrefl _) (List.lt_irrefl _),
          iff_of_false (lt_irrefl _) (List.lt_irrefl _)⟩
    | some d =>
        rcases d with ⟨a, b⟩
        have hne := ne_of_firstDiff hd
        have hfne : f a ≠ f b := fun heq => hne (hf heq)
        have hlt := h a b hd
        have hd' : firstDiff y x = some (b, a) := by
          rw [firstDiff_comm, hd]
          rfl
        rw [diffBy_of_some hd]
        constructor
        · apply iff_of_false
          · omega
          · rintro rfl
            rw [firstDiff_self] at hd
            cases hd
        · rw [lt_iff_of_firstDiff hd, ← hlt]
          omega
        · have hgt : b < a ↔ ¬ a < b :=
            ⟨not_lt_of_gt, fun hle => lt_of_le_of_ne (not_lt.1 hle) hne.symm⟩
          rw [lt_iff_of_firstDiff hd', hgt, ← hlt]
          omega

end Lex
