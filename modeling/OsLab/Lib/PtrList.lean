import Mathlib.Data.List.Nodup
import Mathlib.Logic.Function.Basic

/-! # Singly linked lists in a pointer memory

A node type `α`, a link field `next : α → Option α` (`none` is the null
pointer) and a head pointer. `Chain next p l` says that following `next` from
`p` visits the nodes of `l` in order and then ends in null: the list is finite.
Everything else (no node twice, the nodes are determined by the pointers, what
a write to a link does) follows from that.
-/

namespace PtrList

variable {α : Type*} {next : α → Option α}

/-- Following `next` from the pointer `p` visits exactly `l` and then reaches null. -/
inductive Chain (next : α → Option α) : Option α → List α → Prop
  | nil : Chain next none []
  | cons {a : α} {l : List α} : Chain next (next a) l → Chain next (some a) (a :: l)

@[simp] theorem chain_none {l : List α} : Chain next none l ↔ l = [] := by
  constructor
  · rintro ⟨⟩; rfl
  · rintro rfl; exact .nil

@[simp] theorem chain_some {a : α} {l : List α} :
    Chain next (some a) l ↔ ∃ t, l = a :: t ∧ Chain next (next a) t := by
  constructor
  · intro h
    cases h with
    | cons ht => exact ⟨_, rfl, ht⟩
  · rintro ⟨t, rfl, ht⟩
    exact .cons ht

@[simp] theorem chain_nil {p : Option α} : Chain next p [] ↔ p = none := by
  cases p <;> simp

theorem chain_cons {p : Option α} {a : α} {l : List α} :
    Chain next p (a :: l) ↔ p = some a ∧ Chain next (next a) l := by
  cases p with
  | none => simp
  | some b =>
      simp only [chain_some, List.cons.injEq, Option.some.injEq]
      constructor
      · rintro ⟨t, ⟨rfl, rfl⟩, ht⟩; exact ⟨rfl, ht⟩
      · rintro ⟨rfl, ht⟩; exact ⟨l, ⟨rfl, rfl⟩, ht⟩

/-- The pointers determine the list. -/
theorem Chain.unique {p : Option α} {l l' : List α} (h : Chain next p l) (h' : Chain next p l') :
    l = l' := by
  induction h generalizing l' with
  | nil => exact (chain_none.1 h').symm
  | cons _ ih =>
      rcases chain_some.1 h' with ⟨t, rfl, ht⟩
      rw [ih ht]

/-- From any node on, the rest of the list is again a chain. -/
theorem Chain.suffix {p : Option α} {pre suf : List α} (h : Chain next p (pre ++ suf)) :
    ∃ q, Chain next q suf := by
  induction pre generalizing p with
  | nil => exact ⟨p, h⟩
  | cons a t ih => exact ih (chain_cons.1 h).2

/-- The link of a node points at what follows it. -/
theorem Chain.next_of_append {p : Option α} {pre suf : List α} {a : α}
    (h : Chain next p (pre ++ a :: suf)) : Chain next (next a) suf := by
  rcases h.suffix with ⟨q, hq⟩
  exact (chain_cons.1 hq).2

/-- A chain that ends in null never visits a node twice. -/
theorem Chain.nodup {p : Option α} {l : List α} (h : Chain next p l) : l.Nodup := by
  induction h with
  | nil => exact List.nodup_nil
  | @cons a l hl ih =>
      refine List.nodup_cons.2 ⟨fun ha => ?_, ih⟩
      -- a second visit to `a` would continue with the same list again
      rcases List.append_of_mem ha with ⟨pre, suf, rfl⟩
      have hsuf := hl.next_of_append
      have hlen := congrArg List.length (hl.unique hsuf)
      simp at hlen
      omega

/-- Following `next` from `p` comes to `a`. -/
inductive Visits (next : α → Option α) : Option α → α → Prop
  | here {a : α} : Visits next (some a) a
  | there {a b : α} : Visits next (next a) b → Visits next (some a) b

/-- A chain visits its nodes only. -/
theorem Chain.mem_of_visits {p : Option α} {l : List α} {a : α} (h : Chain next p l)
    (hv : Visits next p a) : a ∈ l := by
  induction hv generalizing l with
  | here =>
      rcases chain_some.1 h with ⟨t, rfl, -⟩
      exact List.mem_cons_self
  | there _ ih =>
      rcases chain_some.1 h with ⟨t, rfl, ht⟩
      exact List.mem_cons_of_mem _ (ih ht)

/-- No node of a chain links to itself. -/
theorem Chain.next_ne {p : Option α} {l : List α} {a b : α} (h : Chain next p l) (ha : a ∈ l)
    (hb : next a = some b) : b ≠ a := by
  rintro rfl
  rcases List.append_of_mem ha with ⟨pre, suf, rfl⟩
  have hsuf := h.next_of_append
  rw [hb] at hsuf
  rcases chain_some.1 hsuf with ⟨t, rfl, -⟩
  have hnd := (List.nodup_append.1 h.nodup).2.1
  exact (List.nodup_cons.1 hnd).1 List.mem_cons_self

/-- No node of a chain links back to its first one. -/
theorem Chain.next_ne_head {l : List α} {a b : α} (h : Chain next (some a) l) (hb : b ∈ l) :
    next b ≠ some a := by
  intro he
  rcases List.append_of_mem hb with ⟨pre, suf, rfl⟩
  have hsuf := h.next_of_append
  rw [he] at hsuf
  have hlen := congrArg List.length (h.unique hsuf)
  simp at hlen
  omega

/-- Different nodes of a chain have different links. -/
theorem Chain.eq_of_next_eq {p : Option α} {l : List α} {a b c : α} (h : Chain next p l)
    (ha : a ∈ l) (hb : b ∈ l) (hac : next a = some c) (hbc : next b = some c) : a = b := by
  induction h with
  | nil => cases ha
  | @cons x t ht ih =>
      rcases List.mem_cons.1 ha with hax | hat
      · rcases List.mem_cons.1 hb with hbx | hbt
        · exact hax.trans hbx.symm
        · rw [← hax, hac] at ht
          exact absurd hbc (ht.next_ne_head hbt)
      · rcases List.mem_cons.1 hb with hbx | hbt
        · rw [← hbx, hbc] at ht
          exact absurd hac (ht.next_ne_head hat)
        · exact ih hat hbt

theorem Chain.congr {next' : α → Option α} {p : Option α} {l : List α} (h : Chain next p l)
    (heq : ∀ a ∈ l, next' a = next a) : Chain next' p l := by
  induction h with
  | nil => exact .nil
  | cons _ ih =>
      refine .cons ?_
      rw [heq _ List.mem_cons_self]
      exact ih fun b hb => heq b (List.mem_cons_of_mem _ hb)

section Update

variable [DecidableEq α]

/-- Writing the link of a node that is not on the list changes nothing. -/
theorem Chain.update_of_notMem {p : Option α} {l : List α} {a : α} {q : Option α}
    (h : Chain next p l) (ha : a ∉ l) : Chain (Function.update next a q) p l :=
  h.congr fun b hb => Function.update_of_ne (fun e : b = a => ha (e ▸ hb)) _ _

/-- Pushing a node in front: its link is set to the old head. -/
theorem Chain.push {p : Option α} {l : List α} {a : α} (h : Chain next p l) (ha : a ∉ l) :
    Chain (Function.update next a p) (some a) (a :: l) := by
  refine .cons ?_
  rw [Function.update_self]
  exact h.update_of_notMem ha

/-- A new node goes behind `a`: its link is set to what follows `a`, then the link of `a` to it. -/
theorem Chain.insertNext {l : List α} {a b : α} (h : Chain next (some a) (a :: l))
    (hb : b ∉ a :: l) :
    Chain (Function.update (Function.update next b (next a)) a (some b)) (some a)
      (a :: b :: l) := by
  have hnd := h.nodup
  have hab : a ∉ b :: l := by
    rintro (_ | ⟨_, ha⟩)
    · exact hb List.mem_cons_self
    · exact (List.nodup_cons.1 hnd).1 ha
  have htail := (chain_cons.1 h).2.push fun hl => hb (List.mem_cons_of_mem _ hl)
  refine .cons ?_
  rw [Function.update_self]
  exact htail.update_of_notMem hab

/-- Unlinking the successor of `a`: the link of `a` skips over `b`. -/
theorem Chain.unlink {p : Option α} {pre suf : List α} {a b : α}
    (h : Chain next p (pre ++ a :: b :: suf)) :
    Chain (Function.update next a (next b)) p (pre ++ a :: suf) := by
  induction pre generalizing p with
  | nil =>
      have hnd := h.nodup
      rcases chain_cons.1 h with ⟨hp, hb⟩
      refine chain_cons.2 ⟨hp, ?_⟩
      rw [Function.update_self]
      refine (chain_cons.1 hb).2.update_of_notMem fun ha => ?_
      simp only [List.nil_append, List.nodup_cons, List.mem_cons] at hnd
      exact hnd.1 (Or.inr ha)
  | cons c t ih =>
      have hnd := h.nodup
      rcases chain_cons.1 h with ⟨hp, ht⟩
      refine chain_cons.2 ⟨hp, ?_⟩
      have hca : c ≠ a := by
        rintro rfl
        simp at hnd
      rw [Function.update_of_ne hca]
      exact ih ht

end Update

/-- In a duplicate-free list every node but the first has a unique predecessor position. -/
theorem exists_pred_of_mem_tail {l : List α} {a : α} (h : a ∈ l.tail) :
    ∃ pre b suf, l = pre ++ b :: a :: suf := by
  cases l with
  | nil => simp at h
  | cons c t =>
      rcases List.append_of_mem (show a ∈ t from h) with ⟨u, v, rfl⟩
      rcases u.eq_nil_or_concat with rfl | ⟨w, b, rfl⟩
      · exact ⟨[], c, v, rfl⟩
      · exact ⟨c :: w, b, v, by simp⟩

end PtrList
