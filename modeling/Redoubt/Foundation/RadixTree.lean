import Mathlib.Data.List.Nodup
import Mathlib.Data.List.Pairwise
import Mathlib.Data.List.Perm.Basic

/-!
# Radix trees kept in a store of tables

A store gives every frame a row of entries, and an entry may point to another
frame.  A tree of height `level` has `level` layers of tables above its pages.
The laws say how the frames of a tree and its leaf entries change when one entry
of one of its tables changes.  They ask that no table occurs twice.
-/

namespace Redoubt.Foundation

/-- One part of a concatenation changes, and the whole changes with it. -/
theorem flatMap_perm_of_change {ι α : Type} {parts : List ι} {f g : ι → List α} {i : ι}
    {added removed : List α} (hnodup : parts.Nodup) (hi : i ∈ parts)
    (hsame : ∀ j ∈ parts, j ≠ i → g j = f j) (hchange : (g i ++ removed).Perm (f i ++ added)) :
    (parts.flatMap g ++ removed).Perm (parts.flatMap f ++ added) := by
  classical
  obtain ⟨front, back, rfl⟩ := List.append_of_mem hi
  have hfront : i ∉ front := fun h => (List.nodup_append.1 hnodup).2.2 i h i (by simp) rfl
  have hback : i ∉ back := (List.nodup_cons.1 (List.nodup_append.1 hnodup).2.1).1
  have hf : front.flatMap g = front.flatMap f :=
    List.flatMap_congr fun j hj => hsame j (by simp [hj]) (by rintro rfl; exact hfront hj)
  have hb : back.flatMap g = back.flatMap f :=
    List.flatMap_congr fun j hj => hsame j (by simp [hj]) (by rintro rfl; exact hback hj)
  refine List.perm_iff_count.2 fun a => ?_
  have hcount := hchange.count_eq a
  simp only [List.flatMap_append, List.flatMap_cons, hf, hb, List.count_append] at hcount ⊢
  omega

/-- How entries point to frames, and how many entries of a table count. -/
structure Radix (F E : Type) where
  decode : E → Option F
  fanout : Nat

namespace Radix

variable {F E α : Type} (R : Radix F E)

/-- What the tables and the pages of a tree contribute, in depth-first order. -/
def gather (atTable atPage : F → List α) (mem : F → Nat → E) : Nat → F → List α
  | 0, page => atPage page
  | level + 1, table =>
      atTable table ++ (List.range R.fanout).flatMap fun index =>
        (R.decode (mem table index)).elim [] (gather atTable atPage mem level)

/-- The same for the tree behind an entry, if it points to one. -/
def below (atTable atPage : F → List α) (mem : F → Nat → E) (level : Nat) (entry : E) : List α :=
  (R.decode entry).elim [] (R.gather atTable atPage mem level)

def tables (mem : F → Nat → E) (level : Nat) (root : F) : List F :=
  R.gather (fun table => [table]) (fun _ => []) mem level root

def pages (mem : F → Nat → E) (level : Nat) (root : F) : List F :=
  R.gather (fun _ => []) (fun page => [page]) mem level root

/-- The table a list of indices leads to. -/
def descend (mem : F → Nat → E) : F → List Nat → Option F
  | table, [] => some table
  | table, index :: path => (R.decode (mem table index)).bind fun child => descend mem child path

/-- The last entry on a list of indices, when it is in use. -/
def leaf (mem : F → Nat → E) : F → List Nat → Option E
  | _, [] => none
  | table, [index] => (R.decode (mem table index)).map fun _ => mem table index
  | table, index :: path => (R.decode (mem table index)).bind fun child => leaf mem child path

variable {R} {mem mem' : F → Nat → E} {level : Nat} {root table child : F} {index : Nat}
  {atTable atPage : F → List α}

theorem gather_succ : R.gather atTable atPage mem (level + 1) table =
    atTable table ++ (List.range R.fanout).flatMap fun index =>
      R.below atTable atPage mem level (mem table index) := rfl

theorem tables_succ : R.tables mem (level + 1) table =
    table :: (List.range R.fanout).flatMap fun index =>
      (R.decode (mem table index)).elim [] (R.tables mem level) := rfl

theorem leaf_cons {path : List Nat} (h : path ≠ []) : R.leaf mem table (index :: path) =
    (R.decode (mem table index)).bind fun child => R.leaf mem child path := by
  cases path with
  | nil => exact absurd rfl h
  | cons => rfl

theorem descend_append {path more : List Nat} : R.descend mem root (path ++ more) =
    (R.descend mem root path).bind fun table => R.descend mem table more := by
  induction path generalizing root with
  | nil => rfl
  | cons _ _ ih =>
      rw [List.cons_append, descend, descend, Option.bind_assoc]
      exact congrArg _ (funext fun child => ih)

theorem leaf_append_singleton {path : List Nat} : R.leaf mem root (path ++ [index]) =
    (R.descend mem root path).bind fun table =>
      (R.decode (mem table index)).map fun _ => mem table index := by
  induction path generalizing root with
  | nil => rfl
  | cons _ _ ih =>
      rw [List.cons_append, leaf_cons (by simp), descend, Option.bind_assoc]
      exact congrArg _ (funext fun child => ih)

theorem root_mem_tables : root ∈ R.tables mem (level + 1) root := by
  rw [tables_succ]
  exact List.mem_cons_self

theorem mem_tables_of_child (hindex : index < R.fanout) (hchild : R.decode (mem root index) = some child)
    (h : table ∈ R.tables mem level child) : table ∈ R.tables mem (level + 1) root := by
  rw [tables_succ]
  refine List.mem_cons_of_mem _ (List.mem_flatMap.2 ⟨index, List.mem_range.2 hindex, ?_⟩)
  rw [hchild]
  exact h

/-! ## Trees without sharing -/

/-- A table is not below itself. -/
theorem root_not_below (hnodup : (R.tables mem (level + 1) root).Nodup) (hindex : index < R.fanout)
    (hchild : R.decode (mem root index) = some child) : root ∉ R.tables mem level child := by
  intro h
  rw [tables_succ, List.nodup_cons] at hnodup
  refine hnodup.1 (List.mem_flatMap.2 ⟨index, List.mem_range.2 hindex, ?_⟩)
  rw [hchild]
  exact h

theorem nodup_child (hnodup : (R.tables mem (level + 1) root).Nodup) (hindex : index < R.fanout)
    (hchild : R.decode (mem root index) = some child) : (R.tables mem level child).Nodup := by
  rw [tables_succ, List.nodup_cons, List.nodup_flatMap] at hnodup
  have h := hnodup.2.1 index (List.mem_range.2 hindex)
  rwa [hchild] at h

/-- Two entries of one table lead to separate tables. -/
theorem child_disjoint (hnodup : (R.tables mem (level + 1) root).Nodup) {other : Nat} {sibling : F}
    (hindex : index < R.fanout) (hother : other < R.fanout) (hne : index ≠ other)
    (hchild : R.decode (mem root index) = some child)
    (hsibling : R.decode (mem root other) = some sibling) :
    List.Disjoint (R.tables mem level child) (R.tables mem level sibling) := by
  rw [tables_succ, List.nodup_cons, List.nodup_flatMap] at hnodup
  have hsymm : Std.Symm (Function.onFun List.Disjoint fun index =>
      (R.decode (mem root index)).elim [] (R.tables mem level)) :=
        ⟨fun _ _ h _ hright hleft => h hleft hright⟩
  have h := hnodup.2.2.forall (List.mem_range.2 hindex) (List.mem_range.2 hother) hne
  simpa [Function.onFun, hchild, hsibling] using h

/-! ## Stores that agree on a tree's tables -/

/-- What a tree holds is determined by its tables. -/
theorem gather_congr
    (h : ∀ table ∈ R.tables mem level root, ∀ index < R.fanout, mem' table index = mem table index) :
    R.gather atTable atPage mem' level root = R.gather atTable atPage mem level root := by
  induction level generalizing root with
  | zero => rfl
  | succ _ ih =>
      rw [gather_succ, gather_succ]
      refine congrArg (atTable root ++ ·) (List.flatMap_congr fun index hindex => ?_)
      have hindex := List.mem_range.1 hindex
      rw [h root root_mem_tables index hindex, below, below]
      cases hchild : R.decode (mem root index) with
      | none => rfl
      | some =>
          exact ih fun table htable => h table (mem_tables_of_child hindex hchild htable)

theorem leaf_congr {path : List Nat} (hpath : ∀ index ∈ path, index < R.fanout)
    (hlength : path.length ≤ level)
    (h : ∀ table ∈ R.tables mem level root, ∀ index < R.fanout, mem' table index = mem table index) :
    R.leaf mem' root path = R.leaf mem root path := by
  induction path generalizing root level with
  | nil => rfl
  | cons index rest ih =>
      obtain ⟨level, rfl⟩ : ∃ below, level = below + 1 := ⟨level - 1, by simp at hlength; omega⟩
      have hindex := hpath index List.mem_cons_self
      have hentry := h root root_mem_tables index hindex
      by_cases hrest : rest = []
      · subst hrest
        simp only [leaf, hentry]
      · rw [leaf_cons hrest, leaf_cons hrest, hentry]
        cases hchild : R.decode (mem root index) with
        | none => rfl
        | some =>
            refine ih (fun next hnext => hpath next (List.mem_cons_of_mem _ hnext))
              (by simpa using hlength) fun table htable => ?_
            exact h table (mem_tables_of_child hindex hchild htable)

/-! ## Changing one entry -/

/-- What a path leads to above the pages is a table of the tree. -/
theorem descend_mem_tables {path : List Nat} (hpath : ∀ index ∈ path, index < R.fanout)
    (hlength : path.length < level) (h : R.descend mem root path = some table) :
    table ∈ R.tables mem level root := by
  induction path generalizing root level with
  | nil =>
      obtain ⟨level, rfl⟩ : ∃ below, level = below + 1 := ⟨level - 1, by simp at hlength; omega⟩
      cases h
      exact root_mem_tables
  | cons index _ ih =>
      obtain ⟨level, rfl⟩ : ∃ below, level = below + 1 := ⟨level - 1, by simp at hlength; omega⟩
      obtain ⟨child, hchild, h⟩ := Option.bind_eq_some_iff.1 h
      refine mem_tables_of_child (hpath index List.mem_cons_self) hchild (ih ?_ ?_ h)
      · exact fun next hnext => hpath next (List.mem_cons_of_mem _ hnext)
      · simpa using hlength

section Change

variable {path : List Nat} {rest : Nat}

/-- A store that differs from another one, on the tables of a tree, in one entry
of the table that a path leads to. -/
structure ChangesAt (R : Radix F E) (mem mem' : F → Nat → E) (level : Nat) (root : F)
    (path : List Nat) (table : F) (index : Nat) : Prop where
  nodup : (R.tables mem level root).Nodup
  bounded : ∀ next ∈ path, next < R.fanout
  inside : index < R.fanout
  located : R.descend mem root path = some table
  same : ∀ other ∈ R.tables mem level root, ∀ slot < R.fanout,
    (other = table → slot ≠ index) → mem' other slot = mem other slot

theorem ChangesAt.tail {next : Nat} (h : ChangesAt R mem mem' (level + 1) root (next :: path) table index)
    (hlength : path.length < level) :
    ∃ child, R.decode (mem root next) = some child ∧
      ChangesAt R mem mem' level child path table index ∧
      table ∈ R.tables mem level child ∧ ∀ slot < R.fanout, mem' root slot = mem root slot := by
  obtain ⟨child, hchild, hlocated⟩ := Option.bind_eq_some_iff.1 h.located
  have hnext := h.bounded next List.mem_cons_self
  have hpath : ∀ index ∈ path, index < R.fanout :=
    fun index hindex => h.bounded index (List.mem_cons_of_mem _ hindex)
  have htable := descend_mem_tables hpath hlength hlocated
  refine ⟨child, hchild, ⟨nodup_child h.nodup hnext hchild, hpath, h.inside, hlocated, ?_⟩, htable, ?_⟩
  · exact fun other hother => h.same other (mem_tables_of_child hnext hchild hother)
  · refine fun slot hslot => h.same root root_mem_tables slot hslot fun heq => ?_
    exact absurd (heq ▸ htable) (root_not_below h.nodup hnext hchild)

/-- Only the subtree behind the changed entry contributes something new. -/
theorem ChangesAt.gather_perm (h : ChangesAt R mem mem' level root path table index)
    (hlevel : level = path.length + (rest + 1)) {added removed : List α}
    (hchange : (R.below atTable atPage mem' rest (mem' table index) ++ removed).Perm
      (R.below atTable atPage mem rest (mem table index) ++ added)) :
    (R.gather atTable atPage mem' level root ++ removed).Perm
      (R.gather atTable atPage mem level root ++ added) := by
  classical
  induction path generalizing level root with
  | nil =>
      obtain rfl : level = rest + 1 := by simpa using hlevel
      obtain rfl : root = table := Option.some.inj h.located
      rw [gather_succ, gather_succ, List.append_assoc, List.append_assoc]
      refine .append_left _
        (flatMap_perm_of_change List.nodup_range (List.mem_range.2 h.inside) ?_ hchange)
      intro slot hslot hne
      have hslot := List.mem_range.1 hslot
      rw [h.same root root_mem_tables slot hslot fun _ => hne, below, below]
      cases hchild : R.decode (mem root slot) with
      | none => rfl
      | some =>
          refine gather_congr fun other hother next hnext => ?_
          refine h.same other (mem_tables_of_child hslot hchild hother) next hnext fun heq => ?_
          exact absurd (heq ▸ hother) (root_not_below h.nodup hslot hchild)
  | cons next path ih =>
      obtain ⟨level, rfl⟩ : ∃ below, level = below + 1 := ⟨level - 1, by simp at hlevel; omega⟩
      have hlevel : level = path.length + (rest + 1) := by simp at hlevel; omega
      obtain ⟨child, hchild, htail, htable, hroot⟩ := h.tail (by omega)
      have hnext := h.bounded next List.mem_cons_self
      rw [gather_succ, gather_succ, List.append_assoc, List.append_assoc]
      refine .append_left _ (flatMap_perm_of_change List.nodup_range (List.mem_range.2 hnext) ?_ ?_)
      · intro slot hslot hne
        have hslot := List.mem_range.1 hslot
        rw [hroot slot hslot, below, below]
        cases hsibling : R.decode (mem root slot) with
        | none => rfl
        | some =>
            refine gather_congr fun other hother index' hindex' => ?_
            refine h.same other (mem_tables_of_child hslot hsibling hother) index' hindex' fun heq => ?_
            exact absurd (heq ▸ hother)
              fun hmem => child_disjoint h.nodup hnext hslot (Ne.symm hne) hchild hsibling htable hmem
      · rw [hroot next hnext, below, below, hchild]
        exact ih htail hlevel

/-- The path to the changed entry is the old one. -/
theorem ChangesAt.descend (h : ChangesAt R mem mem' level root path table index)
    (hlength : path.length < level) : R.descend mem' root path = some table := by
  induction path generalizing level root with
  | nil => exact h.located
  | cons next path ih =>
      obtain ⟨level, rfl⟩ : ∃ below, level = below + 1 := ⟨level - 1, by simp at hlength; omega⟩
      have hshort : path.length < level := by simpa using hlength
      obtain ⟨child, hchild, htail, -, hroot⟩ := h.tail hshort
      rw [Radix.descend, hroot next (h.bounded next List.mem_cons_self), hchild]
      exact ih htail hshort

/-- A subtree that does not contain the changed table has the old leaves. -/
theorem ChangesAt.leaf_apart (h : ChangesAt R mem mem' (level + 1) root path table index) {slot : Nat}
    {other : List Nat} (hslot : slot < R.fanout) (hother : ∀ next ∈ other, next < R.fanout)
    (hfull : other.length ≤ level) (hentry : mem' root slot = mem root slot)
    (hapart : ∀ child, R.decode (mem root slot) = some child → table ∉ R.tables mem level child) :
    R.leaf mem' root (slot :: other) = R.leaf mem root (slot :: other) := by
  by_cases hrest : other = []
  · subst hrest
    simp only [leaf, hentry]
  · rw [leaf_cons hrest, leaf_cons hrest, hentry]
    cases hchild : R.decode (mem root slot) with
    | none => rfl
    | some child =>
        refine leaf_congr hother hfull fun inner hinner next hnext => ?_
        refine h.same inner (mem_tables_of_child hslot hchild hinner) next hnext fun heq => ?_
        exact absurd (heq ▸ hinner) (hapart child hchild)

/-- A leaf that does not lie behind the changed entry is the old one. -/
theorem ChangesAt.leaf_other (h : ChangesAt R mem mem' level root path table index)
    (hlength : path.length < level) {other : List Nat} (hother : ∀ next ∈ other, next < R.fanout)
    (hfull : other.length ≤ level) (hextends : ¬ (path ++ [index]) <+: other) :
    R.leaf mem' root other = R.leaf mem root other := by
  induction path generalizing level root other with
  | nil =>
      cases other with
      | nil => rfl
      | cons slot =>
          obtain ⟨level, rfl⟩ : ∃ below, level = below + 1 := ⟨level - 1, by simp at hlength; omega⟩
          have hslot := hother slot List.mem_cons_self
          have hne : slot ≠ index := by
            rintro rfl
            exact hextends (by simp)
          obtain rfl : root = table := Option.some.inj h.located
          refine h.leaf_apart hslot (fun next hnext => hother next (List.mem_cons_of_mem _ hnext))
            (by simpa using hfull) (h.same root root_mem_tables slot hslot fun _ => hne) ?_
          exact fun child hchild => root_not_below h.nodup hslot hchild
  | cons next path ih =>
      cases other with
      | nil => rfl
      | cons slot other =>
          obtain ⟨level, rfl⟩ : ∃ below, level = below + 1 := ⟨level - 1, by simp at hlength; omega⟩
          have hshort : path.length < level := by simpa using hlength
          have hslot := hother slot List.mem_cons_self
          have htails : ∀ next ∈ other, next < R.fanout :=
            fun next hnext => hother next (List.mem_cons_of_mem _ hnext)
          have hnext := h.bounded next List.mem_cons_self
          obtain ⟨child, hchild, htail, htable, hroot⟩ := h.tail hshort
          by_cases heq : slot = next
          · subst heq
            have hshorter : ¬ (path ++ [index]) <+: other := by simpa using hextends
            by_cases hrest : other = []
            · subst hrest
              simp only [leaf, hroot slot hslot]
            · rw [leaf_cons hrest, leaf_cons hrest, hroot slot hslot, hchild]
              exact ih htail hshort htails (by simpa using hfull) hshorter
          · refine h.leaf_apart hslot htails (by simpa using hfull) (hroot slot hslot) ?_
            intro sibling hsibling hmem
            exact child_disjoint h.nodup hnext hslot (Ne.symm heq) hchild hsibling htable hmem

/-- A leaf behind the changed entry is found from that entry. -/
theorem ChangesAt.leaf_behind (h : ChangesAt R mem mem' level root path table index)
    (hlength : path.length < level) (behind : List Nat) :
    R.leaf mem' root (path ++ index :: behind) = R.leaf mem' table (index :: behind) := by
  induction path generalizing level root with
  | nil =>
      obtain rfl : root = table := Option.some.inj h.located
      rfl
  | cons next path ih =>
      obtain ⟨level, rfl⟩ : ∃ below, level = below + 1 := ⟨level - 1, by simp at hlength; omega⟩
      have hshort : path.length < level := by simpa using hlength
      obtain ⟨child, hchild, htail, -, hroot⟩ := h.tail hshort
      rw [List.cons_append, leaf_cons (by simp), hroot next (h.bounded next List.mem_cons_self), hchild]
      exact ih htail hshort

end Change

/-! ## Leaves and pages -/

theorem pages_succ : R.pages mem (level + 1) table =
    (List.range R.fanout).flatMap fun index =>
      (R.decode (mem table index)).elim [] (R.pages mem level) := rfl

theorem mem_pages_of_child {page : F} (hindex : index < R.fanout)
    (hchild : R.decode (mem root index) = some child) (h : page ∈ R.pages mem level child) :
    page ∈ R.pages mem (level + 1) root := by
  rw [pages_succ]
  refine List.mem_flatMap.2 ⟨index, List.mem_range.2 hindex, ?_⟩
  rw [hchild]
  exact h

/-- A full path with a leaf starts at an entry that points further down. -/
theorem leaf_some_cons {path : List Nat} {entry : E} (h : R.leaf mem root (index :: path) = some entry) :
    ∃ child, R.decode (mem root index) = some child ∧
      (path = [] ∧ mem root index = entry ∨ path ≠ [] ∧ R.leaf mem child path = some entry) := by
  by_cases hpath : path = []
  · subst hpath
    obtain ⟨child, hchild, hentry⟩ := Option.map_eq_some_iff.1 h
    exact ⟨child, hchild, .inl ⟨rfl, hentry⟩⟩
  · rw [leaf_cons hpath] at h
    obtain ⟨child, hchild, hleaf⟩ := Option.bind_eq_some_iff.1 h
    exact ⟨child, hchild, .inr ⟨hpath, hleaf⟩⟩

/-- The page behind a leaf is a page of the tree. -/
theorem leaf_mem_pages {path : List Nat} {entry : E} (hpath : ∀ index ∈ path, index < R.fanout)
    (hlength : path.length = level) (h : R.leaf mem root path = some entry) :
    ∃ page, R.decode entry = some page ∧ page ∈ R.pages mem level root := by
  induction path generalizing root level with
  | nil => cases h
  | cons index _ ih =>
      obtain ⟨level, rfl⟩ : ∃ below, level = below + 1 := ⟨level - 1, by simp at hlength; omega⟩
      have hindex := hpath index List.mem_cons_self
      obtain ⟨child, hchild, ⟨rfl, rfl⟩ | ⟨-, hleaf⟩⟩ := leaf_some_cons h
      · obtain rfl : level = 0 := by simpa using hlength.symm
        exact ⟨child, hchild, mem_pages_of_child hindex hchild (List.mem_singleton.2 rfl)⟩
      · obtain ⟨page, hpage, hmem⟩ := ih (fun next hnext => hpath next (List.mem_cons_of_mem _ hnext))
          (by simpa using hlength) hleaf
        exact ⟨page, hpage, mem_pages_of_child hindex hchild hmem⟩

/-- The page is already in the subtree behind the first index. -/
theorem leaf_cons_mem_pages {path : List Nat} {entry : E} {page : F}
    (hpath : ∀ next ∈ index :: path, next < R.fanout) (hlength : (index :: path).length = level + 1)
    (h : R.leaf mem root (index :: path) = some entry) (hpage : R.decode entry = some page) :
    ∃ child, R.decode (mem root index) = some child ∧ page ∈ R.pages mem level child := by
  obtain ⟨child, hchild, ⟨rfl, rfl⟩ | ⟨-, hleaf⟩⟩ := leaf_some_cons h
  · obtain rfl : level = 0 := by simpa using hlength.symm
    exact ⟨child, hchild, List.mem_singleton.2 (Option.some.inj (hpage.symm.trans hchild))⟩
  · obtain ⟨found, hfound, hmem⟩ := leaf_mem_pages
      (fun next hnext => hpath next (List.mem_cons_of_mem _ hnext)) (by simpa using hlength) hleaf
    obtain rfl := Option.some.inj (hpage.symm.trans hfound)
    exact ⟨child, hchild, hmem⟩

/-- In a tree whose pages are all different, a page is behind one path only. -/
theorem leaf_inj {path other : List Nat} {entry entry' : E} {page : F}
    (hnodup : (R.pages mem level root).Nodup)
    (hpath : ∀ index ∈ path, index < R.fanout) (hother : ∀ index ∈ other, index < R.fanout)
    (hlength : path.length = level) (hlength' : other.length = level)
    (h : R.leaf mem root path = some entry) (h' : R.leaf mem root other = some entry')
    (hpage : R.decode entry = some page) (hpage' : R.decode entry' = some page) : path = other := by
  induction path generalizing root level other with
  | nil => cases h
  | cons index _ ih =>
      obtain ⟨level, rfl⟩ : ∃ below, level = below + 1 := ⟨level - 1, by simp at hlength; omega⟩
      obtain ⟨slot, others, rfl⟩ : ∃ slot others, other = slot :: others :=
        List.exists_cons_of_length_eq_add_one hlength'
      have hindex := hpath index List.mem_cons_self
      have hslot := hother slot List.mem_cons_self
      obtain ⟨child, hchild, hmem⟩ := leaf_cons_mem_pages hpath hlength h hpage
      obtain ⟨sibling, hsibling, hmem'⟩ := leaf_cons_mem_pages hother hlength' h' hpage'
      rw [pages_succ, List.nodup_flatMap] at hnodup
      -- the page is in one subtree only
      have heq : index = slot := by
        by_contra hne
        have hsymm : Std.Symm (Function.onFun List.Disjoint fun index =>
            (R.decode (mem root index)).elim [] (R.pages mem level)) :=
              ⟨fun _ _ h _ hright hleft => h hleft hright⟩
        have hdisjoint := hnodup.2.forall (List.mem_range.2 hindex) (List.mem_range.2 hslot) hne
        simp only [Function.onFun, hchild, hsibling, Option.elim_some] at hdisjoint
        exact hdisjoint hmem hmem'
      subst heq
      obtain rfl := Option.some.inj (hchild.symm.trans hsibling)
      obtain ⟨_, hfirst, ⟨rfl, -⟩ | ⟨hne, hleaf⟩⟩ := leaf_some_cons h
      · simp only [List.length_cons, List.length_nil, Nat.add_right_cancel_iff] at hlength hlength'
        rw [List.eq_nil_of_length_eq_zero (hlength'.trans hlength.symm)]
      · obtain ⟨_, hsecond, ⟨rfl, -⟩ | ⟨-, hleaf'⟩⟩ := leaf_some_cons h'
        · simp only [List.length_cons, List.length_nil, Nat.add_right_cancel_iff] at hlength hlength'
          exact absurd (List.eq_nil_of_length_eq_zero (hlength.trans hlength'.symm)) hne
        · obtain rfl := Option.some.inj (hfirst.symm.trans hchild)
          obtain rfl := Option.some.inj (hsecond.symm.trans hchild)
          have hchildNodup := hnodup.1 index (List.mem_range.2 hindex)
          rw [hchild] at hchildNodup
          rw [ih hchildNodup (fun next hnext => hpath next (List.mem_cons_of_mem _ hnext))
            (fun next hnext => hother next (List.mem_cons_of_mem _ hnext)) (by simpa using hlength)
            (by simpa using hlength') hleaf hleaf']

end Radix

end Redoubt.Foundation
