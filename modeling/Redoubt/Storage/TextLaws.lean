import Redoubt.Storage.Text
import Mathlib.Data.List.DropRight

/-!
# Laws of the text functions

A text is a list of lines, and a line assigns a value to the name in front of its first
equals sign.  Read this way a text is a list of assignments, and its lines can be
removed and appended as such.
-/

namespace Redoubt.Storage

open Redoubt.Foundation

/-! ### Blanks at the ends -/

/-- No blank stands at either end. -/
structure Trimmed (s : List UInt8) : Prop where
  front : s.dropWhile isBlank = s
  back : s.rdropWhile isBlank = s

theorem trimmed_trim (s : List UInt8) : Trimmed (trim s) where
  front := by
    change ((s.dropWhile isBlank).rdropWhile isBlank).dropWhile isBlank =
      (s.dropWhile isBlank).rdropWhile isBlank
    have hfront := List.dropWhile_eq_self_iff.mp (List.dropWhile_idempotent isBlank s)
    have hpart := List.rdropWhile_prefix isBlank (s.dropWhile isBlank)
    rw [List.dropWhile_eq_self_iff]
    intro hpos
    rw [hpart.getElem hpos]
    exact hfront (hpos.trans_le hpart.length_le)
  back := List.rdropWhile_idempotent isBlank (s.dropWhile isBlank)

theorem Trimmed.trim_eq {s : List UInt8} (h : Trimmed s) : trim s = s := by
  change (s.dropWhile isBlank).rdropWhile isBlank = s
  rw [h.front, h.back]

@[simp]
theorem trim_trim (s : List UInt8) : trim (trim s) = trim s := (trimmed_trim s).trim_eq

theorem trim_isInfix (s : List UInt8) : trim s <:+: s :=
  ((List.rdropWhile_prefix isBlank (s.dropWhile isBlank)).isInfix).trans
    (List.dropWhile_suffix isBlank).isInfix

theorem mem_of_mem_trim {s : List UInt8} {byte : UInt8} (h : byte ∈ trim s) : byte ∈ s :=
  (trim_isInfix s).subset h

/-- A line made of a name and a value without blanks at their ends. -/
theorem Trimmed.assignment {name value : List UInt8} (hname : Trimmed name) (named : name ≠ [])
    (hvalue : Trimmed value) : Trimmed (name ++ 61 :: value) where
  front := by
    rw [List.dropWhile_eq_self_iff]
    intro hpos
    have hlen := List.length_pos_iff.mpr named
    rw [List.getElem_append_left hlen]
    exact List.dropWhile_eq_self_iff.mp hname.front hlen
  back := by
    rw [List.rdropWhile_eq_self_iff]
    intro hne
    rw [List.getLast_append_of_ne_nil hne (List.cons_ne_nil 61 value)]
    cases value with
    | nil => decide
    | cons byte rest =>
        rw [List.getLast_cons (List.cons_ne_nil byte rest)]
        exact List.rdropWhile_eq_self_iff.mp hvalue.back (List.cons_ne_nil byte rest)

/-! ### Separators -/

theorem stripPrefix_append (start rest : List UInt8) : stripPrefix (start ++ rest) start = some rest := by
  rw [stripPrefix, List.take_left, if_pos rfl, List.drop_left]

theorem stripPrefix_other {start other : List UInt8} (short : other.length ≤ start.length)
    (differs : start.take other.length ≠ other) (rest : List UInt8) :
    stripPrefix (start ++ rest) other = none := by
  rw [stripPrefix, List.take_append_of_le_length short, if_neg differs]

theorem eq_append_of_stripPrefix {s start rest : List UInt8} (h : stripPrefix s start = some rest) :
    s = start ++ rest := by
  unfold stripPrefix at h
  split_ifs at h with hstart
  rw [← Option.some.inj h]
  calc s = s.take start.length ++ s.drop start.length := (List.take_append_drop _ _).symm
    _ = start ++ s.drop start.length := by rw [hstart]

/-- Cutting a list at the first occurrence of a separator. -/
theorem findIdx?_cut {α : Type} [DecidableEq α] {sep : α} {s first second : List α} :
    ((s.findIdx? (· == sep)).map fun index => (s.take index, s.drop (index + 1))) = some (first, second) ↔
      s = first ++ sep :: second ∧ sep ∉ first := by
  constructor
  · intro h
    obtain ⟨index, hindex, hcut⟩ := Option.map_eq_some_iff.mp h
    cases hcut
    obtain ⟨hlt, hsep, hbefore⟩ := List.findIdx?_eq_some_iff_getElem.mp hindex
    constructor
    · rw [← beq_iff_eq.mp hsep, List.getElem_cons_drop hlt, List.take_append_drop]
    · intro hmem
      obtain ⟨position, hposition, hget⟩ := List.mem_take_iff_getElem.mp hmem
      exact hbefore position (by omega) (beq_iff_eq.mpr hget)
  · rintro ⟨rfl, hfirst⟩
    have hnone : first.findIdx? (· == sep) = none := by
      rw [List.findIdx?_eq_none_iff]
      intro byte hbyte
      rw [beq_eq_false_iff_ne]
      rintro rfl
      exact hfirst hbyte
    rw [List.findIdx?_append, hnone, List.findIdx?_cons, beq_self_eq_true, if_pos rfl]
    simp

theorem splitKv_eq_some_iff {line name value : List UInt8} :
    splitKv line = some (name, value) ↔ line = name ++ 61 :: value ∧ 61 ∉ name :=
  findIdx?_cut

theorem not_mem_of_mem_splitOn {text part : List UInt8} {sep : UInt8}
    (h : part ∈ text.splitOn sep) : sep ∉ part := by
  induction text generalizing part with
  | nil =>
      rw [List.splitOn_nil, List.mem_singleton] at h
      exact h ▸ List.not_mem_nil
  | cons _ rest ih =>
      rw [List.splitOn_cons_eq_if_modifyHead] at h
      split_ifs at h with heq
      · rcases List.mem_cons.mp h with rfl | hrest
        · exact List.not_mem_nil
        · exact ih hrest
      · generalize rest.splitOn sep = parts at h ih
        cases parts with
        | nil => cases h
        | cons =>
            rcases List.mem_cons.mp h with rfl | hmore
            · rw [List.mem_cons, not_or]
              exact ⟨fun hsep => heq (beq_iff_eq.mpr hsep.symm), ih List.mem_cons_self⟩
            · exact ih (List.mem_cons_of_mem _ hmore)

theorem lines_cons {line : List UInt8} (h : 10 ∉ line) (rest : List UInt8) :
    lines (line ++ 10 :: rest) = line :: lines rest :=
  List.splitOn_append_cons_self_of_not_mem h rest

/-! ### Assignments -/

/-- What a line assigns. -/
def assignment (line : List UInt8) : Option (List UInt8 × List UInt8) :=
  (splitKv (trim line)).map fun pair => (pair.1, trim pair.2)

theorem assignment_eq_some_iff {line name value : List UInt8} : assignment line = some (name, value) ↔
    ∃ raw, trim line = name ++ 61 :: raw ∧ 61 ∉ name ∧ trim raw = value := by
  rw [assignment, Option.map_eq_some_iff]
  constructor
  · rintro ⟨⟨name', raw⟩, hsplit, heq⟩
    cases heq
    obtain ⟨hline, hname⟩ := splitKv_eq_some_iff.mp hsplit
    exact ⟨raw, hline, hname, rfl⟩
  · rintro ⟨raw, hline, hname, rfl⟩
    exact ⟨(name, raw), splitKv_eq_some_iff.mpr ⟨hline, hname⟩, rfl⟩

theorem assignment_trim (line : List UInt8) : assignment (trim line) = assignment line := by
  rw [assignment, trim_trim, assignment]

theorem assignment_blank {line : List UInt8} (h : trim line = []) : assignment line = none := by
  rw [assignment, h]
  rfl

/-- The names and values of an assignment come from its line. -/
theorem assignment_clean {line name value : List UInt8} (h : assignment line = some (name, value))
    (single : 10 ∉ line) : 61 ∉ name ∧ 10 ∉ name ∧ 10 ∉ value := by
  obtain ⟨raw, hline, hname, rfl⟩ := assignment_eq_some_iff.mp h
  have hwhole : 10 ∉ name ++ 61 :: raw := fun hmem => single (mem_of_mem_trim (hline ▸ hmem))
  rw [List.mem_append, List.mem_cons, not_or, not_or] at hwhole
  exact ⟨hname, hwhole.1, fun hmem => hwhole.2.2 (mem_of_mem_trim hmem)⟩

theorem lineValue_trim (key line : List UInt8) :
    lineValue key (trim line) =
      (assignment line).bind fun pair => if pair.1 = key then some pair.2 else none := by
  unfold lineValue assignment
  cases splitKv (trim line) <;> rfl

/-- The assignments of a text, in order. -/
def assignments (text : List UInt8) : List (List UInt8 × List UInt8) := (lines text).filterMap assignment

theorem assignments_line {line : List UInt8} (h : 10 ∉ line) (rest : List UInt8) :
    assignments (line ++ 10 :: rest) = (assignment line).toList ++ assignments rest := by
  rw [assignments, lines_cons h, List.filterMap_cons]
  cases assignment line <;> rfl

theorem assignments_clean {text name value : List UInt8} (h : (name, value) ∈ assignments text) :
    61 ∉ name ∧ 10 ∉ name ∧ 10 ∉ value := by
  obtain ⟨line, hline, hassign⟩ := List.mem_filterMap.mp h
  exact assignment_clean hassign (not_mem_of_mem_splitOn hline)

/-- The first assignment to a key decides. -/
theorem findSome?_lineValue (text key : List UInt8) :
    ((lines text).findSome? fun line => lineValue key (trim line)) = (assignments text).lookup key := by
  unfold assignments
  induction lines text with
  | nil => rfl
  | cons line _ ih =>
      rw [List.findSome?_cons, List.filterMap_cons, lineValue_trim, ih]
      cases assignment line with
      | none => rfl
      | some pair =>
          rw [Option.bind_some, List.lookup_cons]
          by_cases hkey : pair.1 = key
          · rw [if_pos hkey, hkey, beq_self_eq_true]
          · rw [if_neg hkey, beq_eq_false_iff_ne.mpr (Ne.symm hkey)]

theorem findKv_clean {payload key value : List UInt8} (h : findKv payload key = some value) :
    61 ∉ key ∧ 10 ∉ key ∧ 10 ∉ value := by
  obtain ⟨line, hline, hfound⟩ := List.exists_of_findSome?_eq_some h
  dsimp only at hfound
  split_ifs at hfound
  rw [lineValue_trim] at hfound
  obtain ⟨⟨name, found⟩, hassign, hvalue⟩ := Option.bind_eq_some_iff.mp hfound
  split_ifs at hvalue with hname
  cases hvalue
  rw [← hname]
  exact assignment_clean hassign (not_mem_of_mem_splitOn hline)

end Redoubt.Storage
