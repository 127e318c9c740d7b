import Mathlib.Data.List.Sort
import Mathlib.Order.Defs.LinearOrder

/-! # Stable sorting by a key

`IsStableSort key l s`: `s` is `l` sorted by `key`, with elements of one key in the
order of `l`. There is just one such list, `List.mergeSort` computes it, and
inserting one element behind those with its key or a smaller one extends it.
-/

namespace StableSort

variable {α β κ : Type*} [LinearOrder κ] {key : α → κ}

/-- `s` is the stable sort of `l` by `key`. -/
structure IsStableSort (key : α → κ) (l s : List α) : Prop where
  sorted : s.Pairwise fun a b => key a ≤ key b
  ties : ∀ k, s.filter (fun a => decide (key a = k)) = l.filter fun a => decide (key a = k)

/-- The order on elements that their keys give. -/
def byKey (key : α → κ) (a b : α) : Bool := decide (key a ≤ key b)

/-- `a` goes in front of the first element with a larger key. -/
def insertAfter (key : α → κ) (a : α) : List α → List α
  | [] => [a]
  | b :: t => if key a < key b then a :: b :: t else b :: insertAfter key a t

/-! ## There is just one -/

theorem IsStableSort.nil : IsStableSort key [] [] := ⟨List.Pairwise.nil, fun _ => rfl⟩

/-- The elements are the same. -/
theorem IsStableSort.mem_iff {l s : List α} (h : IsStableSort key l s) {a : α} : a ∈ s ↔ a ∈ l := by
  have hties := h.ties (key a)
  constructor
  · intro ha
    have : a ∈ s.filter fun b => decide (key b = key a) := List.mem_filter.2 ⟨ha, by simp⟩
    rw [hties] at this
    exact (List.mem_filter.1 this).1
  · intro ha
    have : a ∈ l.filter fun b => decide (key b = key a) := List.mem_filter.2 ⟨ha, by simp⟩
    rw [← hties] at this
    exact (List.mem_filter.1 this).1

/-- The head of a sorted list has the least key. -/
theorem key_head_le {a : α} {s : List α} (h : (a :: s).Pairwise fun a b => key a ≤ key b) {b : α}
    (hb : b ∈ a :: s) : key a ≤ key b := by
  rcases List.mem_cons.1 hb with rfl | hb
  · exact le_rfl
  · exact (List.pairwise_cons.1 h).1 b hb

/-- Two sorted lists with the same elements of every key are equal. -/
theorem eq_of_ties {s t : List α} (hs : s.Pairwise fun a b => key a ≤ key b)
    (ht : t.Pairwise fun a b => key a ≤ key b)
    (hties : ∀ k, s.filter (fun a => decide (key a = k)) = t.filter fun a => decide (key a = k)) :
    s = t := by
  have hst : IsStableSort key t s := ⟨hs, hties⟩
  induction s generalizing t with
  | nil =>
      cases t with
      | nil => rfl
      | cons b t => exact absurd (hst.mem_iff.2 List.mem_cons_self) List.not_mem_nil
  | cons a s ih =>
      cases t with
      | nil => exact absurd (hst.mem_iff.1 List.mem_cons_self) List.not_mem_nil
      | cons b t =>
          -- both heads have the least key, so they are the first of that key
          have hkey : key a = key b :=
            le_antisymm (key_head_le hs (hst.mem_iff.2 List.mem_cons_self))
              (key_head_le ht (hst.mem_iff.1 List.mem_cons_self))
          have hhead := hties (key b)
          rw [List.filter_cons_of_pos (by simp [hkey]), List.filter_cons_of_pos (by simp)] at hhead
          rcases List.cons.inj hhead with ⟨rfl, -⟩
          have htail : ∀ k, s.filter (fun c => decide (key c = k)) =
              t.filter fun c => decide (key c = k) := by
            intro k
            have hk := hties k
            by_cases hak : key a = k
            · rw [List.filter_cons_of_pos (by simp [hak]),
                List.filter_cons_of_pos (by simp [hak])] at hk
              exact (List.cons.inj hk).2
            · rwa [List.filter_cons_of_neg (by simp [hak]),
                List.filter_cons_of_neg (by simp [hak])] at hk
          have hs' := (List.pairwise_cons.1 hs).2
          rw [ih hs' (List.pairwise_cons.1 ht).2 htail ⟨hs', htail⟩]

theorem IsStableSort.unique {l s t : List α} (hs : IsStableSort key l s)
    (ht : IsStableSort key l t) : s = t :=
  eq_of_ties hs.sorted ht.sorted fun k => (hs.ties k).trans (ht.ties k).symm

/-- `List.mergeSort` sorts stably. -/
theorem isStableSort_mergeSort (l : List α) : IsStableSort key l (l.mergeSort (byKey key)) := by
  have htrans : ∀ a b c, byKey key a b → byKey key b c → byKey key a c := by
    intro a b c hab hbc
    simp only [byKey, decide_eq_true_eq] at *
    exact hab.trans hbc
  have htotal : ∀ a b, byKey key a b || byKey key b a := by
    intro a b
    simp only [byKey, Bool.or_eq_true, decide_eq_true_eq]
    exact le_total _ _
  refine ⟨?_, fun k => ?_⟩
  · exact (List.pairwise_mergeSort htrans htotal l).imp fun h => by simpa [byKey] using h
  · -- the elements of one key are sorted, so they stay a sublist
    have hk : (l.filter fun a => decide (key a = k)).Pairwise fun a b => byKey key a b := by
      refine List.pairwise_of_forall_mem_list fun a ha b hb => ?_
      have ha' := (List.mem_filter.1 ha).2
      have hb' := (List.mem_filter.1 hb).2
      simp only [decide_eq_true_eq] at ha' hb'
      simp [byKey, ha', hb']
    have hsub := List.sublist_mergeSort htrans htotal hk List.filter_sublist
    have hsub' := hsub.filter fun a => decide (key a = k)
    rw [List.filter_filter] at hsub'
    simp only [Bool.and_self] at hsub'
    exact (hsub'.eq_of_length
      ((List.mergeSort_perm l (byKey key)).symm.filter _).length_eq).symm

/-- A stable sort is what `List.mergeSort` computes. -/
theorem isStableSort_iff {l s : List α} :
    IsStableSort key l s ↔ s = l.mergeSort (byKey key) := by
  constructor
  · intro h
    exact h.unique (isStableSort_mergeSort l)
  · rintro rfl
    exact isStableSort_mergeSort l

/-! ## Insertion -/

theorem insertAfter_perm (a : α) (l : List α) : (insertAfter key a l).Perm (a :: l) := by
  induction l with
  | nil => exact List.Perm.refl _
  | cons b t ih =>
      rw [insertAfter]
      split
      · exact List.Perm.refl _
      · exact (ih.cons b).trans (List.Perm.swap a b t)

theorem map_insertAfter {f : β → α} (b : β) (l : List β) :
    (insertAfter (fun x => key (f x)) b l).map f = insertAfter key (f b) (l.map f) := by
  induction l with
  | nil => rfl
  | cons c t ih =>
      rw [List.map_cons, insertAfter, insertAfter]
      split
      · rfl
      · rw [List.map_cons, ih]

theorem insertAfter_sorted {a : α} {s : List α} (h : s.Pairwise fun a b => key a ≤ key b) :
    (insertAfter key a s).Pairwise fun a b => key a ≤ key b := by
  induction s with
  | nil => exact List.pairwise_singleton _ _
  | cons b t ih =>
      rcases List.pairwise_cons.1 h with ⟨hb, ht⟩
      rw [insertAfter]
      split
      · rename_i hlt
        refine List.pairwise_cons.2 ⟨fun c hc => ?_, h⟩
        exact hlt.le.trans (key_head_le h hc)
      · rename_i hge
        refine List.pairwise_cons.2 ⟨fun c hc => ?_, ih ht⟩
        rcases List.mem_cons.1 ((insertAfter_perm a t).mem_iff.1 hc) with rfl | hc
        · exact not_lt.1 hge
        · exact hb c hc

/-- In a sorted list the new element comes behind all those of its key. -/
theorem insertAfter_ties {a : α} {s : List α} (h : s.Pairwise fun a b => key a ≤ key b) (k : κ) :
    (insertAfter key a s).filter (fun a => decide (key a = k)) =
      (s ++ [a]).filter fun a => decide (key a = k) := by
  induction s with
  | nil => rfl
  | cons b t ih =>
      have ht := (List.pairwise_cons.1 h).2
      rw [insertAfter]
      split
      · rename_i hlt
        by_cases hak : key a = k
        · -- nothing behind has the key of `a`
          have hnone : (b :: t).filter (fun c => decide (key c = k)) = [] := by
            refine List.filter_eq_nil_iff.2 fun c hc => ?_
            have hle := key_head_le h hc
            simp only [decide_eq_true_eq]
            rintro rfl
            exact absurd (hlt.trans_le hle) (by rw [hak]; exact lt_irrefl _)
          rw [List.filter_append, hnone, List.filter_cons_of_pos (by simp [hak]), hnone,
            List.filter_cons_of_pos (by simp [hak])]
          rfl
        · have hsingle : [a].filter (fun c => decide (key c = k)) = [] := by simp [hak]
          rw [List.filter_append, hsingle, List.append_nil]
          exact List.filter_cons_of_neg (by simp [hak])
      · rw [List.cons_append, List.filter_cons, List.filter_cons, ih ht]

/-- A new element that is inserted so extends the stable sort. -/
theorem IsStableSort.insertAfter {l s : List α} (h : IsStableSort key l s) (a : α) :
    IsStableSort key (l ++ [a]) (insertAfter key a s) := by
  refine ⟨insertAfter_sorted h.sorted, fun k => ?_⟩
  rw [insertAfter_ties h.sorted, List.filter_append, List.filter_append, h.ties]

end StableSort
