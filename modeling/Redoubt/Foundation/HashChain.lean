import Mathlib.Logic.Function.Basic

/-!
# Chained logs

The cells of a log are numbered, and each one carries a link made from the cell before
it.  A replay follows the cells from number 0 on as long as they check; an append puts
a cell where the replay ends.  The rules here say that an append moves the end of the
replay by one and leaves the cells before it alone, and that the last link determines
the cells as far as links do.
-/

namespace Redoubt.Foundation

/-- How the cells of a log are checked and linked. -/
structure ChainFormat (α β : Type) where
  /-- The link carried by cell 0. -/
  genesis : β
  /-- The link carried by the cell after this one. -/
  link : α → β
  valid : Nat → β → α → Bool

namespace ChainFormat

variable {α β : Type} (F : ChainFormat α β)

/-- The link that the cell of this number has to carry. -/
def linkAt (log : Nat → α) : Nat → β
  | 0 => F.genesis
  | index + 1 => F.link (log index)

/-- The first cells check one after the other. -/
def Intact (log : Nat → α) (count : Nat) : Prop :=
  ∀ index < count, F.valid index (F.linkAt log index) (log index) = true

/-- Follow the cells that check. -/
def replay (log : Nat → α) : Nat → Nat → β → Nat × β
  | 0, seq, prev => (seq, prev)
  | fuel + 1, seq, prev =>
      if F.valid seq prev (log seq) then replay log fuel (seq + 1) (F.link (log seq))
      else (seq, prev)

/-- A log of at most `cap` cells with `count` intact ones, behind which no cell checks
under any link. -/
structure Ends (cap : Nat) (log : Nat → α) (count : Nat) : Prop where
  room : count ≤ cap
  intact : F.Intact log count
  blank : ∀ index, count ≤ index → index < cap → ∀ prev, F.valid index prev (log index) = false

variable {F} {cap count : Nat} {log : Nat → α}

theorem linkAt_congr {other : Nat → α} (same : ∀ index < count, other index = log index) :
    F.linkAt other count = F.linkAt log count := by
  cases count with
  | zero => rfl
  | succ count => exact congrArg F.link (same count (Nat.lt_succ_self count))

theorem Intact.congr {other : Nat → α} (h : F.Intact log count)
    (same : ∀ index < count, other index = log index) : F.Intact other count := by
  intro index hindex
  rw [same index hindex, linkAt_congr fun before hbefore => same before (by omega)]
  exact h index hindex

/-- Where equal links of two cells that check mean equal cells with equal links before
them, up to collisions, the last link determines the whole log. -/
theorem Intact.binds {Collides : α → α → Prop}
    (binding : ∀ index prev prev' cell cell', F.valid index prev cell = true →
      F.valid index prev' cell' = true → F.link cell = F.link cell' →
      Collides cell cell' ∨ cell = cell' ∧ prev = prev')
    {other : Nat → α} (h : F.Intact log count) (h' : F.Intact other count)
    (last : F.linkAt log count = F.linkAt other count) :
    (∃ index < count, Collides (log index) (other index)) ∨ ∀ index < count, log index = other index := by
  -- from the last cell backwards: its link gives the cell and the link before it
  induction count with
  | zero => exact .inr fun index hindex => absurd hindex (Nat.not_lt_zero index)
  | succ count ih =>
      have hcell := h count (Nat.lt_succ_self count)
      have hcell' := h' count (Nat.lt_succ_self count)
      rcases binding _ _ _ _ _ hcell hcell' last with hcollides | ⟨heq, hprev⟩
      · exact .inl ⟨count, Nat.lt_succ_self count, hcollides⟩
      · have hfront : F.Intact log count := fun index hindex => h index (by omega)
        have hfront' : F.Intact other count := fun index hindex => h' index (by omega)
        rcases ih hfront hfront' hprev with ⟨index, hindex, hcollides⟩ | hsame
        · exact .inl ⟨index, by omega, hcollides⟩
        · refine .inr fun index hindex => ?_
          rcases Nat.lt_succ_iff_lt_or_eq.mp hindex with hbefore | rfl
          · exact hsame index hbefore
          · exact heq

namespace Ends

/-- Exactly the cells before the end are intact. -/
theorem intact_iff (h : F.Ends cap log count) {front : Nat} (inside : front ≤ cap) :
    F.Intact log front ↔ front ≤ count := by
  constructor
  · intro hfront
    by_contra hlong
    have hlast := hfront count (by omega)
    rw [h.blank count (Nat.le_refl _) (by omega)] at hlast
    cases hlast
  · intro hle index hindex
    exact h.intact index (by omega)

/-- A replay from any cell of the intact part stops at its end. -/
theorem replay_eq (h : F.Ends cap log count) {fuel seq : Nat} (before : seq ≤ count)
    (enough : seq + fuel = cap) :
    F.replay log fuel seq (F.linkAt log seq) = (count, F.linkAt log count) := by
  induction fuel generalizing seq with
  | zero =>
      have hend : seq = count := by
        have hroom := h.room
        omega
      rw [hend]
      rfl
  | succ _ ih =>
      rw [replay]
      by_cases hmore : seq < count
      · rw [if_pos (h.intact seq hmore)]
        exact ih hmore (by omega)
      · have hend : seq = count := by omega
        rw [hend, if_neg]
        rw [h.blank count (Nat.le_refl _) (by omega)]
        exact Bool.false_ne_true

theorem congr {other : Nat → α} (h : F.Ends cap log count)
    (same : ∀ index < cap, other index = log index) : F.Ends cap other count where
  room := h.room
  intact := h.intact.congr fun index hindex => same index (Nat.lt_of_lt_of_le hindex h.room)
  blank := by
    intro index hlow hhigh prev
    rw [same index hhigh]
    exact h.blank index hlow hhigh prev

/-- Appending a cell that carries the right link. -/
theorem append (h : F.Ends cap log count) (room : count < cap) {cell : α}
    (linked : F.valid count (F.linkAt log count) cell = true) :
    F.Ends cap (Function.update log count cell) (count + 1) where
  room := room
  intact := by
    have hkept : ∀ index < count, Function.update log count cell index = log index :=
      fun index hindex => Function.update_of_ne (by omega) _ _
    intro index hindex
    rcases Nat.lt_succ_iff_lt_or_eq.mp hindex with hold | rfl
    · exact h.intact.congr hkept index hold
    · rw [Function.update_self, linkAt_congr hkept]
      exact linked
  blank := by
    intro index hlow hhigh prev
    rw [Function.update_of_ne (by omega)]
    exact h.blank index (by omega) hhigh prev

end Ends

end ChainFormat

end Redoubt.Foundation
