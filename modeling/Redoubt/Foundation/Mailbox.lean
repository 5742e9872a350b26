import Mathlib.Data.List.Basic

/-!
# Histories of a FIFO mailbox

A mailbox is known by its history alone: senders post messages, receivers take
them, and a sender may withdraw what it posted and nobody took yet.  `Holds`
relates such a history to the queue an implementation keeps; from it follows
that the messages taken and the queue together are the surviving posts in order.
-/

namespace Redoubt.Foundation.Mailbox

variable {κ μ : Type}

/-- What happens to a mailbox. -/
inductive Mark (κ μ : Type) where
  | post (sender : κ) (message : μ)
  | take (sender : κ) (message : μ)
  /-- The sender gives up whatever of its messages still waits. -/
  | withdraw (sender : κ)
  deriving DecidableEq, Repr

inductive Fate where
  | waiting
  | taken
  | withdrawn
  deriving DecidableEq, Repr

section Definitions

variable [DecidableEq κ]

/-- What one mark does to a waiting message of this sender. -/
def Mark.fate (sender : κ) : Mark κ μ → Fate
  | .post _ _ => .waiting
  | .take other _ => if other = sender then .taken else .waiting
  | .withdraw other => if other = sender then .withdrawn else .waiting

/-- What becomes of a message of this sender, given what happens after its post. -/
def fate (sender : κ) : List (Mark κ μ) → Fate
  | [] => .waiting
  | mark :: rest =>
      match mark.fate sender with
      | .waiting => fate sender rest
      | settled => settled

/-- The posts that were not withdrawn before they were taken, oldest first. -/
def surviving : List (Mark κ μ) → List (κ × μ)
  | [] => []
  | .post sender message :: rest =>
      if fate sender rest = .withdrawn then surviving rest
      else (sender, message) :: surviving rest
  | _ :: rest => surviving rest

/-- The messages as their receivers saw them, in the order of receipt. -/
def taken : List (Mark κ μ) → List (κ × μ) :=
  List.filterMap fun
    | .take sender message => some (sender, message)
    | _ => none

/-- Every post with what became of it. -/
def ledger : List (Mark κ μ) → List (Fate × κ × μ)
  | [] => []
  | .post sender message :: rest => (fate sender rest, sender, message) :: ledger rest
  | _ :: rest => ledger rest

/-- The ledger after one more mark. -/
def settle (mark : Mark κ μ) (entry : Fate × κ × μ) : Fate × κ × μ :=
  if entry.1 = .waiting then (mark.fate entry.2.1, entry.2) else entry

/-- The queue of an implementation agrees with the history: what survives has
been taken, or waits in the queue in the order of posting. -/
def Holds (history : List (Mark κ μ)) (queue : List (κ × μ)) : Prop :=
  (ledger history).filter (fun entry => entry.1 ≠ .withdrawn) =
    (taken history).map (fun message => (.taken, message)) ++
      queue.map fun message => (.waiting, message)

end Definitions

theorem filter_tagged {tag : Fate} (htag : tag ≠ .withdrawn) (messages : List (κ × μ)) :
    (messages.map fun message => (tag, message)).filter (fun entry => entry.1 ≠ .withdrawn) =
      messages.map fun message => (tag, message) := by
  refine List.filter_eq_self.2 fun entry hmem => ?_
  obtain ⟨message, -, rfl⟩ := List.mem_map.1 hmem
  simpa using htag

variable [DecidableEq κ] {history : List (Mark κ μ)} {queue : List (κ × μ)} {sender : κ}
  {message : μ}

theorem fate_append (mark : Mark κ μ) : fate sender (history ++ [mark]) =
    if fate sender history = .waiting then mark.fate sender else fate sender history := by
  induction history with
  | nil => cases hfate : mark.fate sender <;> simp [fate, hfate]
  | cons first _ ih => cases hfate : first.fate sender <;> simp [fate, hfate, ih]

theorem ledger_append_post : ledger (history ++ [.post sender message]) =
    ledger history ++ [(.waiting, sender, message)] := by
  induction history with
  | nil => rfl
  | cons first rest ih =>
      cases first with
      | post other =>
          have hfate : fate other (rest ++ [.post sender message]) = fate other rest := by
            rw [fate_append, Mark.fate]
            split_ifs with hwaiting
            · exact hwaiting.symm
            · rfl
          simp only [List.cons_append, ledger, ih, hfate]
      | take => exact ih
      | withdraw => exact ih

theorem ledger_append_settle {mark : Mark κ μ}
    (hmark : ∀ sender message, mark ≠ .post sender message) :
    ledger (history ++ [mark]) = (ledger history).map (settle mark) := by
  induction history with
  | nil =>
      cases mark with
      | post sender message => exact absurd rfl (hmark sender message)
      | take => rfl
      | withdraw => rfl
  | cons first _ ih =>
      cases first with
      | post =>
          simp only [List.cons_append, ledger, ih, fate_append, List.map_cons, settle]
          split_ifs <;> rfl
      | take => exact ih
      | withdraw => exact ih

/-- A settled message stays settled, so withdrawn entries may be dropped first. -/
theorem filter_map_settle (mark : Mark κ μ) (entries : List (Fate × κ × μ)) :
    (entries.map (settle mark)).filter (fun entry => entry.1 ≠ .withdrawn) =
      ((entries.filter fun entry => entry.1 ≠ .withdrawn).map (settle mark)).filter
        fun entry => entry.1 ≠ .withdrawn := by
  induction entries with
  | nil => rfl
  | cons entry _ ih =>
      obtain ⟨state, key⟩ := entry
      cases state with
      | withdrawn => simpa [settle] using ih
      | waiting => simp only [List.map_cons, List.filter_cons, ih]; simp [List.filter_cons]
      | taken => simp only [List.map_cons, List.filter_cons, ih]; simp [settle]

theorem Holds.nil : Holds ([] : List (Mark κ μ)) [] := rfl

theorem Holds.post (h : Holds history queue) (sender : κ) (message : μ) :
    Holds (history ++ [.post sender message]) (queue ++ [(sender, message)]) := by
  unfold Holds at h ⊢
  rw [ledger_append_post, List.filter_append, h]
  simp [taken]

/-- What a mark other than a post leaves of a ledger that agrees with a queue. -/
theorem Holds.settle (mark : Mark κ μ) (h : Holds history queue)
    (hmark : ∀ sender message, mark ≠ .post sender message) :
    (ledger (history ++ [mark])).filter (fun entry => entry.1 ≠ .withdrawn) =
      (taken history).map (fun message => (.taken, message)) ++
        (queue.map fun message => (mark.fate message.1, message)).filter
          fun entry => entry.1 ≠ .withdrawn := by
  rw [ledger_append_settle hmark, filter_map_settle, h, List.map_append, List.filter_append,
    List.map_map, List.map_map]
  congr 1
  exact filter_tagged (by simp) (taken history)

/-- The oldest message is taken. -/
theorem Holds.take (h : Holds history ((sender, message) :: queue))
    (honly : ∀ other ∈ queue, other.1 ≠ sender) :
    Holds (history ++ [.take sender message]) queue := by
  have hsettled := h.settle (.take sender message) nofun
  have hqueue : (queue.map fun message' => ((Mark.take sender message).fate message'.1, message')) =
      queue.map fun message' => (.waiting, message') := by
    refine List.map_congr_left fun other hmem => ?_
    simp [Mark.fate, Ne.symm (honly other hmem)]
  have hwaiting := filter_tagged (by simp : Fate.waiting ≠ .withdrawn) queue
  unfold Holds
  rw [hsettled, List.map_cons, hqueue, List.filter_cons, hwaiting]
  simp [taken, Mark.fate]

/-- A sender gives up: its messages leave the queue. -/
theorem Holds.withdraw (h : Holds history queue) (sender : κ) :
    Holds (history ++ [.withdraw sender]) (queue.filter fun waiting => waiting.1 ≠ sender) := by
  have hsettled := h.settle (.withdraw sender) nofun
  unfold Holds
  rw [hsettled]
  congr 1
  · simp [taken]
  · clear h hsettled
    induction queue with
    | nil => rfl
    | cons first _ ih =>
        by_cases hfirst : sender = first.1
        · simpa [List.filter_cons, Mark.fate, hfirst] using ih
        · simpa [List.filter_cons, Mark.fate, hfirst, Ne.symm hfirst] using ih

theorem surviving_eq (history : List (Mark κ μ)) : surviving history =
    ((ledger history).filter fun entry => entry.1 ≠ .withdrawn).map Prod.snd := by
  induction history with
  | nil => rfl
  | cons first rest ih =>
      cases first with
      | post sender =>
          by_cases hfate : fate sender rest = .withdrawn <;>
            simp [surviving, ledger, hfate, ih]
      | take => exact ih
      | withdraw => exact ih

/-- First in, first out, exactly once: the surviving posts are what was taken
followed by what waits. -/
theorem Holds.surviving_eq_append (h : Holds history queue) :
    surviving history = taken history ++ queue := by
  rw [surviving_eq, h, List.map_append, List.map_map, List.map_map]
  simp [Function.comp_def]

end Redoubt.Foundation.Mailbox
