import Mathlib.Data.List.Nodup
import Mathlib.Data.List.Lattice

/-!
# Tables of records with a key

A table is a list whose elements carry a key.  Lookup and update act on the
first element with a key, as an iterator search does.  The lemmas describe a
table after an update by its lookup function alone.
-/

namespace Redoubt.Foundation

variable {α κ : Type} [DecidableEq κ]

/-- First element with this key. -/
def lookup (key : α → κ) (k : κ) (table : List α) : Option α :=
  table.find? fun entry => key entry == k

/-- Change the first element with this key. -/
def update (key : α → κ) (k : κ) (change : α → α) : List α → List α
  | [] => []
  | entry :: rest =>
      if key entry = k then change entry :: rest
      else entry :: update key k change rest

variable {key : α → κ} {k other : κ} {table : List α} {entry : α} {change : α → α}

@[simp]
theorem lookup_nil : lookup key k ([] : List α) = none := rfl

theorem lookup_cons : lookup key k (entry :: table) =
    if key entry = k then some entry else lookup key k table := by
  unfold lookup
  by_cases h : key entry = k <;> simp [h]

theorem lookup_key (h : lookup key k table = some entry) : key entry = k := by
  simpa using List.find?_some h

theorem lookup_mem (h : lookup key k table = some entry) : entry ∈ table :=
  List.mem_of_find?_eq_some h

theorem lookup_eq_none : lookup key k table = none ↔ ∀ entry ∈ table, key entry ≠ k := by
  simp [lookup]

/-- With distinct keys a member is what its key looks up. -/
theorem lookup_of_mem (hnodup : (table.map key).Nodup) (h : entry ∈ table) :
    lookup key (key entry) table = some entry := by
  induction table with
  | nil => cases h
  | cons first _ ih =>
      rw [List.map_cons, List.nodup_cons] at hnodup
      rw [lookup_cons]
      rcases List.mem_cons.mp h with rfl | hrest
      · simp
      · have hne : key first ≠ key entry := by
          intro heq
          exact hnodup.1 (heq ▸ List.mem_map_of_mem hrest)
        simp [hne, ih hnodup.2 hrest]

theorem lookup_append : lookup key k (table ++ [entry]) =
    (lookup key k table).or (if key entry = k then some entry else none) := by
  unfold lookup
  rw [List.find?_append]
  by_cases h : key entry = k <;> simp [h]

theorem lookup_update (hkey : ∀ entry, key (change entry) = key entry) :
    lookup key other (update key k change table) =
      if other = k then (lookup key other table).map change else lookup key other table := by
  induction table with
  | nil => simp [update]
  | cons first _ ih =>
      unfold update
      by_cases hfirst : key first = k
      · rw [if_pos hfirst, lookup_cons, lookup_cons, hkey]
        by_cases hother : other = k
        · simp [hother, hfirst]
        · have hne : key first ≠ other := fun h => hother (h.symm.trans hfirst)
          simp [hother, hne]
      · rw [if_neg hfirst, lookup_cons, lookup_cons, ih]
        by_cases hother : other = k
        · subst hother
          simp [hfirst]
        · simp [hother]

theorem map_key_update (hkey : ∀ entry, key (change entry) = key entry) :
    (update key k change table).map key = table.map key := by
  induction table with
  | nil => rfl
  | cons _ _ ih =>
      unfold update
      split <;> simp [hkey, ih]

/-- With distinct keys an update acts where its key stands. -/
theorem update_append_cons {before after : List α}
    (hnodup : ((before ++ entry :: after).map key).Nodup) :
    update key (key entry) change (before ++ entry :: after) = before ++ change entry :: after := by
  induction before with
  | nil => simp [update]
  | cons first _ ih =>
      rw [List.cons_append, List.map_cons, List.nodup_cons] at hnodup
      have hne : key first ≠ key entry := fun h => hnodup.1 (h ▸ List.mem_map_of_mem (by simp))
      simp only [List.cons_append, update, if_neg hne, ih hnodup.2]

/-- Removing a key removes exactly its lookups. -/
theorem lookup_filter_ne : lookup key other (table.filter fun entry => key entry ≠ k) =
    if other = k then none else lookup key other table := by
  induction table with
  | nil => simp
  | cons first _ ih =>
      by_cases hfirst : key first = k
      · rw [List.filter_cons_of_neg (by simp [hfirst]), ih, lookup_cons]
        by_cases hother : other = k
        · simp [hother]
        · have hne : key first ≠ other := fun h => hother (h.symm.trans hfirst)
          simp [hother, hne]
      · rw [List.filter_cons_of_pos (by simp [hfirst]), lookup_cons, lookup_cons, ih]
        by_cases hother : other = k
        · subst hother
          simp [hfirst]
        · simp [hother]

/-- With distinct keys, erasing the first element with a key is filtering. -/
theorem eraseP_eq_filter (hnodup : (table.map key).Nodup) :
    table.eraseP (fun entry => key entry == k) = table.filter fun entry => key entry ≠ k := by
  induction table with
  | nil => rfl
  | cons first _ ih =>
      rw [List.map_cons, List.nodup_cons] at hnodup
      by_cases hfirst : key first = k
      · rw [List.eraseP_cons_of_pos (by simp [hfirst]),
          List.filter_cons_of_neg (by simp [hfirst])]
        symm
        rw [List.filter_eq_self]
        intro entry hentry
        have hne : key entry ≠ k := by
          intro heq
          exact hnodup.1 (hfirst ▸ heq ▸ List.mem_map_of_mem hentry)
        simpa using hne
      · rw [List.eraseP_cons_of_neg (by simp [hfirst]),
          List.filter_cons_of_pos (by simp [hfirst]), ih hnodup.2]

theorem lookup_map (hkey : ∀ entry, key (change entry) = key entry) :
    lookup key k (table.map change) = (lookup key k table).map change := by
  induction table with
  | nil => rfl
  | cons _ _ ih =>
      rw [List.map_cons, lookup_cons, lookup_cons, hkey, ih]
      split <;> rfl

end Redoubt.Foundation
