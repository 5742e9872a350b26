import Mathlib.Logic.Function.Basic
import Mathlib.Data.List.Basic

/-!
# Stores and logs of cell writes

A log of writes is applied to a store cell by cell.  A store that lost power holds
what a first part of the log wrote.
-/

namespace Redoubt.Foundation

variable {κ α : Type} [DecidableEq κ]

/-- Writes applied in order. -/
def applyWrites (store : κ → α) (log : List (κ × α)) : κ → α :=
  log.foldl (fun store entry => Function.update store entry.1 entry.2) store

@[simp]
theorem applyWrites_nil (store : κ → α) : applyWrites store [] = store := rfl

@[simp]
theorem applyWrites_append (store : κ → α) (first second : List (κ × α)) :
    applyWrites store (first ++ second) = applyWrites (applyWrites store first) second := by
  simp [applyWrites]

/-- A cell that is not written keeps its value. -/
theorem applyWrites_of_untouched (store : κ → α) (log : List (κ × α)) (cell : κ)
    (untouched : ∀ entry ∈ log, entry.1 ≠ cell) : applyWrites store log cell = store cell := by
  induction log generalizing store with
  | nil => rfl
  | cons entry log ih =>
      rw [List.forall_mem_cons] at untouched
      change applyWrites (Function.update store entry.1 entry.2) log cell = store cell
      rw [ih _ untouched.2, Function.update_of_ne untouched.1.symm]

/-- A cell that is written, always with the same value, holds it. -/
theorem applyWrites_of_same (store : κ → α) (log : List (κ × α)) {cell : κ} {value : α}
    (written : (cell, value) ∈ log) (same : ∀ entry ∈ log, entry.1 = cell → entry.2 = value) :
    applyWrites store log cell = value := by
  induction log generalizing store with
  | nil => cases written
  | cons entry log ih =>
      rw [List.forall_mem_cons] at same
      change applyWrites (Function.update store entry.1 entry.2) log cell = value
      by_cases hagain : (cell, value) ∈ log
      · exact ih _ hagain same.2
      · have hfirst : entry = (cell, value) := ((List.mem_cons.mp written).resolve_right hagain).symm
        rw [applyWrites_of_untouched, hfirst, Function.update_self]
        intro later hlater heq
        have hvalue := same.2 later hlater heq
        rw [← heq, ← hvalue] at hagain
        exact hagain hlater

/-- Values for consecutive cells. -/
def numbered (base : Nat) : List α → List (Nat × α)
  | [] => []
  | value :: values => (base, value) :: numbered (base + 1) values

theorem mem_numbered {base : Nat} {values : List α} {entry : Nat × α}
    (h : entry ∈ numbered base values) : base ≤ entry.1 ∧ entry.1 < base + values.length := by
  induction values generalizing base with
  | nil => cases h
  | cons _ _ ih =>
      rcases List.mem_cons.mp h with rfl | hrest
      · exact ⟨Nat.le_refl _, by simp⟩
      · obtain ⟨hlow, hhigh⟩ := ih hrest
        rw [List.length_cons]
        omega

@[simp]
theorem length_numbered (base : Nat) (values : List α) :
    (numbered base values).length = values.length := by
  induction values generalizing base with
  | nil => rfl
  | cons _ _ ih => rw [numbered, List.length_cons, List.length_cons, ih]

theorem numbered_take (base count : Nat) (values : List α) :
    numbered base (values.take count) = (numbered base values).take count := by
  induction values generalizing base count with
  | nil => rw [List.take_nil, numbered, List.take_nil]
  | cons _ _ ih =>
      cases count with
      | zero => rfl
      | succ => rw [List.take_succ_cons, numbered, numbered, List.take_succ_cons, ih]

/-- Consecutive writes are read back at their cells. -/
theorem applyWrites_numbered (store : Nat → α) (base : Nat) (values : List α) (index : Nat)
    (h : index < values.length) :
    applyWrites store (numbered base values) (base + index) = values[index] := by
  induction values generalizing base store index with
  | nil => simp at h
  | cons value values ih =>
      change applyWrites (Function.update store base value) (numbered (base + 1) values)
        (base + index) = _
      cases index with
      | zero =>
          rw [applyWrites_of_untouched]
          · simp
          · intro entry hentry
            have hlow := (mem_numbered hentry).1
            omega
      | succ index =>
          have hshift : base + (index + 1) = base + 1 + index := by omega
          rw [hshift, ih _ _ _ (by simpa using h)]
          rfl

end Redoubt.Foundation
