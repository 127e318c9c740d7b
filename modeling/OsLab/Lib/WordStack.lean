import Mathlib.Logic.Function.Basic
import Mathlib.Data.List.Basic
import Mathlib.Tactic.Common

/-! # A stack of words in memory

Words take `w` addresses each, and the stack grows downwards. What is read from the stack pointer
upwards after pushing a list is that list, the last pushed first, and then what was there before.
-/

namespace WordStack

variable {α : Type*} {w n i a sp v : ℕ} {mem : ℕ → α} {x : α} {xs : List α}

/-- The `n` words from `a` on. -/
def words (w : ℕ) (mem : ℕ → α) (a : ℕ) : ℕ → List α
  | 0 => []
  | n + 1 => mem a :: words w mem (a + w) n

@[simp] theorem length_words (mem : ℕ → α) (a n : ℕ) : (words w mem a n).length = n := by
  induction n generalizing a with
  | zero => rfl
  | succ n ih => rw [words, List.length_cons, ih]

theorem getElem?_words (mem : ℕ → α) (a : ℕ) (hi : i < n) :
    (words w mem a n)[i]? = some (mem (a + w * i)) := by
  induction n generalizing a i with
  | zero => exact absurd hi (Nat.not_lt_zero i)
  | succ n ih =>
      cases i with
      | zero => rfl
      | succ i =>
          rw [words, List.getElem?_cons_succ, ih (a + w) (Nat.lt_of_succ_lt_succ hi), Nat.mul_succ,
            Nat.add_assoc, Nat.add_comm w]

/-- A word of the list is one in memory. -/
theorem mem_of_words_eq (h : words w mem a n = xs) (hx : xs[i]? = some x) : mem (a + w * i) = x := by
  have hi : i < n := by
    rw [← h] at hx
    have := (List.getElem?_eq_some_iff.1 hx).1
    rwa [length_words] at this
  rw [← h, getElem?_words mem a hi] at hx
  exact Option.some.inj hx

theorem words_congr {mem' : ℕ → α} (h : ∀ b, a ≤ b → b < a + w * n → mem' b = mem b)
    (hw : 0 < w) : words w mem' a n = words w mem a n := by
  induction n generalizing a with
  | zero => rfl
  | succ n ih =>
      rw [Nat.mul_succ] at h
      have h0 : mem' a = mem a := h a (Nat.le_refl a) (by omega)
      rw [words, words, h0, ih fun b hab hb => h b (by omega) (by omega)]

/-! ## Pushing -/

/-- The stack pointer and the memory after pushing a word. -/
def push (w : ℕ) (x : α) (s : ℕ × (ℕ → α)) : ℕ × (ℕ → α) :=
  (s.1 - w, Function.update s.2 (s.1 - w) x)

/-- All words of a list, the first one first. -/
def pushAll (w : ℕ) (xs : List α) (s : ℕ × (ℕ → α)) : ℕ × (ℕ → α) :=
  xs.foldl (fun s x => push w x s) s

variable {s : ℕ × (ℕ → α)}

theorem pushAll_append (xs ys : List α) (s : ℕ × (ℕ → α)) :
    pushAll w (xs ++ ys) s = pushAll w ys (pushAll w xs s) := List.foldl_append

theorem pushAll_sp (xs : List α) (s : ℕ × (ℕ → α)) :
    (pushAll w xs s).1 = s.1 - w * xs.length := by
  induction xs generalizing s with
  | nil => rfl
  | cons x xs ih =>
      rw [pushAll, List.foldl_cons]
      refine (ih (push w x s)).trans ?_
      rw [push, List.length_cons, Nat.mul_succ]
      omega

/-- The memory outside of the words pushed is as it was. -/
theorem pushAll_frame (h : w * xs.length ≤ s.1) (hw : 0 < w)
    (ha : a < s.1 - w * xs.length ∨ s.1 ≤ a) : (pushAll w xs s).2 a = s.2 a := by
  induction xs generalizing s with
  | nil => rfl
  | cons x xs ih =>
      rw [List.length_cons, Nat.mul_succ] at h ha
      have hne : a ≠ s.1 - w := by omega
      rw [pushAll, List.foldl_cons]
      refine (ih (s := push w x s) (by rw [push]; omega) (by rw [push]; omega)).trans ?_
      exact Function.update_of_ne hne _ _

theorem words_push (h : w ≤ s.1) (hw : 0 < w) (n : ℕ) :
    words w (push w x s).2 (push w x s).1 (n + 1) = x :: words w s.2 s.1 n := by
  have hback : s.1 - w + w = s.1 := Nat.sub_add_cancel h
  have htop : (push w x s).2 (push w x s).1 = x := Function.update_self _ _ _
  have hsp : (push w x s).1 + w = s.1 := hback
  rw [words, htop, hsp]
  refine congrArg (x :: ·) (words_congr (fun b hb _ => ?_) hw)
  exact Function.update_of_ne (by omega) _ _

theorem words_pushAll (xs : List α) (s : ℕ × (ℕ → α)) (h : w * xs.length ≤ s.1) (hw : 0 < w)
    (n : ℕ) :
    words w (pushAll w xs s).2 (pushAll w xs s).1 (xs.length + n) =
      xs.reverse ++ words w s.2 s.1 n := by
  induction xs generalizing s n with
  | nil => rw [List.length_nil, Nat.zero_add]; rfl
  | cons x xs ih =>
      rw [List.length_cons, Nat.mul_succ] at h
      have hstep := ih (push w x s) (by rw [push]; omega) (n + 1)
      rw [words_push (by omega) hw] at hstep
      rw [List.length_cons, Nat.add_assoc, Nat.add_comm 1 n, List.reverse_cons, List.append_assoc]
      exact hstep

/-! ## Storing upwards -/

/-- A list written from `a` on. -/
def store (w : ℕ) (xs : List α) (a : ℕ) (mem : ℕ → α) : ℕ → α :=
  match xs with
  | [] => mem
  | x :: xs => store w xs (a + w) (Function.update mem a x)

theorem store_frame {b : ℕ} (hb : b < a ∨ a + w * xs.length ≤ b) (hw : 0 < w) :
    store w xs a mem b = mem b := by
  induction xs generalizing a mem with
  | nil => rfl
  | cons x xs ih =>
      rw [List.length_cons, Nat.mul_succ] at hb
      rw [store, ih (by omega)]
      exact Function.update_of_ne (by omega) _ _

theorem words_store (hw : 0 < w) : words w (store w xs a mem) a xs.length = xs := by
  induction xs generalizing a mem with
  | nil => rfl
  | cons x xs ih =>
      have hhead : store w (x :: xs) a mem a = x := by
        rw [store, store_frame (Or.inl (by omega)) hw, Function.update_self]
      rw [List.length_cons, words, hhead, store, ih]

end WordStack
