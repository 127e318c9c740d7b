import Mathlib.Data.List.Nodup
import Mathlib.Data.List.Flatten
import Mathlib.Data.Option.Basic
import Mathlib.Tactic.Common

/-! # Trees of tables in a memory

A table at depth `d` has entries, some of which lead to a table at depth `d + 1`. From a
root, a table is reached along a path of indices, which is written here from
the last index to the first: its length is then the depth, and its tail the path of
the table above. Several trees are apart when no table is reached along two
paths. Trees that are apart stay so when an empty table is added or
a root given up, and what is reached along a path changes at this place only.

The memory that holds the tables is not mentioned: `next` is whatever it says at the time.
-/

/-- The first table of each root, and the table that an entry of a table at some depth leads to. -/
structure Tables (R P I : Type*) where
  root : R → Option P
  next : ℕ → P → I → Option P

namespace Tables

variable {R P I : Type*} {T T' : Tables R P I} {r r' : R} {path path' ext : List I} {p q t : P}
  {i : I}

/-- The table that is reached from `r` along a path. -/
def table (T : Tables R P I) (r : R) : List I → Option P
  | [] => T.root r
  | i :: path => (T.table r path).bind fun p => T.next path.length p i

theorem table_cons_eq_some : T.table r (i :: path) = some q ↔
    ∃ p, T.table r path = some p ∧ T.next path.length p i = some q :=
  Option.bind_eq_some_iff

/-- Above a table there are tables. -/
theorem table_of_append (h : T.table r (ext ++ path) = some q) : ∃ p, T.table r path = some p := by
  induction ext generalizing q with
  | nil => exact ⟨q, h⟩
  | cons i ext ih =>
      rcases table_cons_eq_some.1 h with ⟨p, hp, -⟩
      exact ih hp

/-- No table is reached along two paths. -/
def Apart (T : Tables R P I) : Prop :=
  ∀ ⦃r path r' path' p⦄, T.table r path = some p → T.table r' path' = some p →
    r = r' ∧ path = path'

/-! ## An empty table more -/

/-- `T'` has the empty table `q` at the end of the path, and is else as `T`. -/
structure Added (T T' : Tables R P I) (r : R) (path : List I) (q : P) : Prop where
  fresh : ∀ r' path', T.table r' path' ≠ some q
  empty : ∀ d j, T'.next d q j = none
  above : ∀ j path', path = j :: path' → ∃ p, T.table r path' = some p
  root : ∀ r' t, T'.root r' = some t ↔ T.root r' = some t ∨ (r' = r ∧ path = [] ∧ t = q)
  next : ∀ r' path' p, T.table r' path' = some p → ∀ j t, T'.next path'.length p j = some t ↔
    T.next path'.length p j = some t ∨ (r' = r ∧ path = j :: path' ∧ t = q)

theorem Added.table_iff (h : Added T T' r path q) : T'.table r' path' = some t ↔
    T.table r' path' = some t ∨ (r' = r ∧ path' = path ∧ t = q) := by
  induction path' generalizing t with
  | nil =>
      refine (h.root r' t).trans (or_congr_right ?_)
      rw [@eq_comm _ [] path]
  | cons j path' ih =>
      rw [table_cons_eq_some, table_cons_eq_some]
      constructor
      · rintro ⟨p, hp, hnext⟩
        rcases ih.1 hp with hold | ⟨-, -, rfl⟩
        · refine ((h.next r' path' p hold j t).1 hnext).imp (fun hn => ⟨p, hold, hn⟩) ?_
          exact fun hnew => ⟨hnew.1, hnew.2.1.symm, hnew.2.2⟩
        · -- the new table is empty
          rw [h.empty] at hnext
          cases hnext
      · rintro (⟨p, hp, hnext⟩ | ⟨rfl, hpath, rfl⟩)
        · exact ⟨p, ih.2 (Or.inl hp), (h.next r' path' p hp j t).2 (Or.inl hnext)⟩
        · rcases h.above j path' hpath.symm with ⟨p, hp⟩
          exact ⟨p, ih.2 (Or.inl hp), (h.next r' path' p hp j t).2
            (Or.inr ⟨rfl, hpath.symm, rfl⟩)⟩

theorem Apart.add (h : T.Apart) (hadd : Added T T' r path q) : T'.Apart := by
  intro r₁ path₁ r₂ path₂ p h₁ h₂
  rcases hadd.table_iff.1 h₁ with hold₁ | ⟨rfl, rfl, rfl⟩
  · rcases hadd.table_iff.1 h₂ with hold₂ | ⟨-, -, rfl⟩
    · exact h hold₁ hold₂
    · exact absurd hold₁ (hadd.fresh _ _)
  · rcases hadd.table_iff.1 h₂ with hold₂ | ⟨rfl, rfl, -⟩
    · exact absurd hold₂ (hadd.fresh _ _)
    · exact ⟨rfl, rfl⟩

/-! ## Fewer roots -/

/-- `T'` has the roots of `T` with the property `K`, and under them the same tables. -/
structure Kept (T T' : Tables R P I) (K : R → Prop) : Prop where
  root : ∀ r t, T'.root r = some t ↔ K r ∧ T.root r = some t
  next : ∀ r path p, K r → T.table r path = some p → ∀ j,
    T'.next path.length p j = T.next path.length p j

variable {K : R → Prop}

theorem Kept.table_iff (h : Kept T T' K) :
    T'.table r path = some t ↔ K r ∧ T.table r path = some t := by
  induction path generalizing t with
  | nil => exact h.root r t
  | cons j path ih =>
      rw [table_cons_eq_some, table_cons_eq_some]
      constructor
      · rintro ⟨p, hp, hnext⟩
        rcases ih.1 hp with ⟨hr, hold⟩
        exact ⟨hr, p, hold, by rwa [← h.next r path p hr hold]⟩
      · rintro ⟨hr, p, hp, hnext⟩
        exact ⟨p, ih.2 ⟨hr, hp⟩, by rwa [h.next r path p hr hp]⟩

theorem Apart.keep (h : T.Apart) (hkeep : Kept T T' K) : T'.Apart :=
  fun _ _ _ _ _ h₁ h₂ => h (hkeep.table_iff.1 h₁).2 (hkeep.table_iff.1 h₂).2

/-! ## The tables under a table -/

/-- The tables under `p`, which is at depth `d`, for `n` levels, each after those under it. -/
def collect (T : Tables R P I) (is : List I) : ℕ → ℕ → P → List P
  | 0, _, _ => []
  | n + 1, d, p =>
      (is.flatMap fun i => (T.next d p i).toList.flatMap (T.collect is n (d + 1))) ++ [p]

/-- `n` levels and the indices `is` are all that there is under a path. -/
structure Within (T : Tables R P I) (r : R) (path : List I) (is : List I) (n : ℕ) : Prop where
  index : ∀ ext i q, T.table r (i :: (ext ++ path)) = some q → i ∈ is
  depth : ∀ ext q, T.table r (ext ++ path) = some q → ext.length < n

variable {is : List I} {n : ℕ}

theorem Within.below (h : Within T r path is (n + 1)) : Within T r (i :: path) is n := by
  refine ⟨fun ext j q hq => ?_, fun ext q hq => ?_⟩
  · rw [List.append_cons] at hq
    exact h.index _ j q hq
  · rw [List.append_cons] at hq
    have hlen := h.depth _ q hq
    rw [List.length_append, List.length_singleton] at hlen
    omega

theorem mem_collect (hp : T.table r path = some p) (h : Within T r path is n) :
    q ∈ T.collect is n path.length p ↔ ∃ ext, T.table r (ext ++ path) = some q := by
  induction n generalizing path p with
  | zero => exact absurd (h.depth [] p hp) (Nat.not_lt_zero _)
  | succ n ih =>
      simp only [collect, List.mem_append, List.mem_flatMap, Option.mem_toList,
        List.mem_singleton]
      constructor
      · rintro (⟨i, -, t, ht, hq⟩ | rfl)
        · have hbelow : T.table r (i :: path) = some t := table_cons_eq_some.2 ⟨p, hp, ht⟩
          rcases (ih hbelow h.below).1 hq with ⟨ext, hext⟩
          exact ⟨ext ++ [i], by rwa [List.append_assoc]⟩
        · exact ⟨[], hp⟩
      · rintro ⟨ext, hext⟩
        -- on the index that is used first, the last of `ext`
        rcases List.eq_nil_or_concat ext with rfl | ⟨ext', i, rfl⟩
        · exact Or.inr (Option.some.inj (hext.symm.trans hp))
        · rw [List.concat_eq_append, List.append_assoc] at hext
          rcases table_of_append hext with ⟨t, ht⟩
          rcases table_cons_eq_some.1 ht with ⟨p', hp', hnext⟩
          obtain rfl := Option.some.inj (hp'.symm.trans hp)
          exact Or.inl ⟨i, h.index [] i t ht, t, hnext, (ih ht h.below).2 ⟨ext', hext⟩⟩

/-- No table is collected twice. -/
theorem nodup_collect (hapart : T.Apart) (his : is.Nodup) (hp : T.table r path = some p)
    (h : Within T r path is n) : (T.collect is n path.length p).Nodup := by
  induction n generalizing path p with
  | zero => exact List.nodup_nil
  | succ n ih =>
      have hbelow : ∀ i t, T.next path.length p i = some t → T.table r (i :: path) = some t :=
        fun i t ht => table_cons_eq_some.2 ⟨p, hp, ht⟩
      have hmem : ∀ i t, t ∈ (T.next path.length p i).toList.flatMap
          (T.collect is n (path.length + 1)) → ∃ ext, T.table r (ext ++ i :: path) = some t := by
        intro i t ht
        rcases List.mem_flatMap.1 ht with ⟨u, hu, htu⟩
        exact (mem_collect (hbelow i u (Option.mem_toList.1 hu)) h.below).1 htu
      rw [collect, List.nodup_append]
      refine ⟨List.nodup_flatMap.2 ⟨fun i _ => ?_, ?_⟩, List.nodup_singleton p, ?_⟩
      · cases hnext : T.next path.length p i with
        | none => exact List.nodup_nil
        | some t =>
            rw [Option.toList_some, List.flatMap_singleton]
            exact ih (hbelow i t hnext) h.below
      · -- under two entries
        refine his.imp fun {i j} hij t hti htj => hij ?_
        rcases hmem i t hti with ⟨ext, hext⟩
        rcases hmem j t htj with ⟨ext', hext'⟩
        have hpath := (hapart hext hext').2
        have hlen := congrArg List.length hpath
        simp only [List.length_append, List.length_cons] at hlen
        exact (List.cons.inj (List.append_inj hpath (by omega)).2).1
      · -- `p` itself
        rintro t ht _ hp' rfl
        obtain rfl := List.mem_singleton.1 hp'
        rcases List.mem_flatMap.1 ht with ⟨i, -, hti⟩
        rcases hmem i t hti with ⟨ext, hext⟩
        have hlen := congrArg List.length (hapart hext hp).2
        simp only [List.length_append, List.length_cons] at hlen
        omega

end Tables
