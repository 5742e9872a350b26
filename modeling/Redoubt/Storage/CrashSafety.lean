import Redoubt.Storage.UpdateFlow
import Mathlib.Logic.Relation

/-!
# Updates, reboots and power loss

Runs of the storage service over update requests, reboots and power losses, with the
last committed system as a ghost.  A power loss cuts the log of sector writes at any
place.  In every state of a run the disk boots exactly the last committed system, and
its generation never decreases.
-/

namespace Redoubt.Storage

open Redoubt.Foundation Redoubt.Crypto

variable {st : State} {writes : List (Nat × Sector)}

/-- The service is off, only its disk remains, or it is running. -/
inductive Power where
  | off (disk : Disk)
  | on (st : State) (d : Dev)

def Power.disk : Power → Disk
  | off disk => disk
  | on _ d => d.disk

/-- The superblock and the sectors of the two slots. -/
def SystemSector (lba : Nat) : Prop := lba = superblockLba ∨ ∃ slot : SlotId, slot.Owns lba

/-- The last commit after an update request of which these writes reached the disk: the
validated slot counts once the superblock was written. -/
def lastCommit (w : World) (st : State) (d : Dev) (writes : List (Nat × Sector)) (old : Commit) :
    Commit :=
  if writes.any (·.1 == superblockLba) then (validated w st d).getD old else old

/-- One step of a run in which all reads succeed. -/
inductive UpdateStep (pubkey : Bytes 32) : Power × Commit → Power × Commit → Prop where
  | boot {disk : Disk} {c : Commit} (w : World) (reads : w.ReadsSucceed) :
      UpdateStep pubkey (.off disk, c)
        (.on (boot w true pubkey (Dev.fresh disk)).1 (boot w true pubkey (Dev.fresh disk)).2, c)
  /-- Power is lost during a mount. -/
  | bootCut {disk : Disk} {c : Commit} (w : World) (reads : w.ReadsSucceed) (count : Nat) :
      UpdateStep pubkey (.off disk, c)
        (.off (applyWrites disk
          ((madeWrites (Dev.fresh disk) (boot w true pubkey (Dev.fresh disk)).2).take count)), c)
  /-- Something else writes the disk, for example the staging area. -/
  | stage {st : State} {d : Dev} {c : Commit} (disk : Disk)
      (outside : ∀ lba, SystemSector lba → disk lba = d.disk lba) :
      UpdateStep pubkey (.on st d, c) (.on st { d with disk }, c)
  | stageOff {old : Disk} {c : Commit} (disk : Disk)
      (outside : ∀ lba, SystemSector lba → disk lba = old lba) :
      UpdateStep pubkey (.off old, c) (.off disk, c)
  /-- The service goes on only after an update in which a failed write left its last sector. -/
  | update {st : State} {d : Dev} {c : Commit} (w : World) (reads : w.ReadsSucceed)
      (keeps : w.FailuresKeep) :
      UpdateStep pubkey (.on st d, c)
        (.on (handle w st beginUpdate d).2.1 (handle w st beginUpdate d).2.2,
          lastCommit w st d (madeWrites d (handle w st beginUpdate d).2.2) c)
  /-- Power is lost during an update. -/
  | updateCut {st : State} {d : Dev} {c : Commit} (w : World) (reads : w.ReadsSucceed) (count : Nat) :
      UpdateStep pubkey (.on st d, c)
        (.off (applyWrites d.disk ((madeWrites d (handle w st beginUpdate d).2.2).take count)),
          lastCommit w st d ((madeWrites d (handle w st beginUpdate d).2.2).take count) c)

/-! ### The invariant -/

/-- The running service knows the committed system. -/
structure RunsCommit (pubkey : Bytes 32) (st : State) (disk : Disk) (c : Commit) : Prop where
  pinned : st.pubkey = pubkey
  keyed : st.volKey = superblockKey (disk superblockLba)
  active : st.active = some c.1
  generation : st.generation = c.2.1

def Consistent (pubkey : Bytes 32) : Power × Commit → Prop
  | (.off disk, c) => BootsCommit pubkey disk c
  | (.on st d, c) => BootsCommit pubkey d.disk c ∧ RunsCommit pubkey st d.disk c

variable {w : World} {pubkey : Bytes 32} {c : Commit}

namespace BootsCommit

variable {disk other : Disk}

/-- Writes beside the superblock and the committed slot change nothing. -/
theorem applyWrites_beside (h : BootsCommit pubkey disk c)
    (beside : ∀ entry ∈ writes, entry.1 ≠ superblockLba ∧ ¬ c.1.Owns entry.1) :
    BootsCommit pubkey (applyWrites disk writes) c := by
  refine h.congr ?_ fun lba howns => ?_
  · exact applyWrites_of_untouched _ _ _ fun entry hentry => (beside entry hentry).1
  · refine applyWrites_of_untouched _ _ _ fun entry hentry heq => (beside entry hentry).2 ?_
    rwa [heq]

end BootsCommit

theorem lastCommit_beside {d : Dev}
    (beside : ∀ entry ∈ writes, entry.1 ≠ superblockLba) : lastCommit w st d writes c = c := by
  refine if_neg fun hany => ?_
  obtain ⟨entry, hentry, heq⟩ := List.any_eq_true.mp hany
  exact beside entry hentry (beq_iff_eq.mp heq)

theorem lastCommit_superblock {d : Dev} {new : Commit}
    {sector : Sector} (written : (superblockLba, sector) ∈ writes)
    (valid : validated w st d = some new) : lastCommit w st d writes c = new := by
  have hany : writes.any (·.1 == superblockLba) = true :=
    List.any_eq_true.mpr ⟨_, written, beq_self_eq_true _⟩
  rw [lastCommit, if_pos hany, valid]
  rfl

/-! ### The writes of an update -/

/-- Neither the superblock nor a slot other than the target. -/
def BesideTarget (target : SlotId) (lba : Nat) : Prop :=
  lba ≠ superblockLba ∧ ∀ slot, slot ≠ target → ¬ slot.Owns lba

theorem besideTarget_of_owns {target : SlotId} {lba : Nat} (h : target.Owns lba) :
    BesideTarget target lba := by
  refine ⟨?_, fun slot hne howns => ?_⟩
  · rintro rfl
    exact superblock_not_owned target h
  · rw [SlotId.eq_other hne] at howns
    exact SlotId.not_owns_other h howns

theorem besideTarget_of_audit (target : SlotId) {lba : Nat} (h : AuditSector lba) :
    BesideTarget target lba := by
  refine ⟨?_, fun slot _ howns => SlotId.not_owns_audit howns h⟩
  rintro rfl
  exact superblock_not_audit h

/-- What an update request writes: sectors of the target slot, perhaps the superblock that
names the slot after it was found good, and audit records.  A service that goes on as before
wrote no superblock, unless the write was reported as failed. -/
theorem update_writes (reads : w.ReadsSucceed) (st : State) (d : Dev) :
    let after := runUpdate w st d
    after.2.2.disk = applyWrites d.disk (madeWrites d after.2.2) ∧
      ((∀ entry ∈ madeWrites d after.2.2, BesideTarget (updateTarget st.active) entry.1) ∧
          after.2.1.system = st.system ∨
        ∃ front tail gen payload genA genB,
          madeWrites d after.2.2 = front ++ (superblockLba,
            writeSuperblock (some (updateTarget st.active)) genA genB st.volKey) :: tail ∧
          (∀ entry ∈ front, BesideTarget (updateTarget st.active) entry.1) ∧
          (∀ entry ∈ tail, AuditSector entry.1) ∧
          slotOnDisk (applyWrites d.disk front) st.volKey st.pubkey (updateTarget st.active) =
            some (payload, gen) ∧
          validated w st d = some (updateTarget st.active, gen, payload) ∧
          (st.active.isSome → st.generation < gen) ∧
          (w.FailuresKeep → after.2.1.system =
            { st.system with active := some (updateTarget st.active), generation := gen })) := by
  obtain ⟨reply, mid, written, houtcome, hends⟩ := @runUpdate_cases w st d
  obtain ⟨seq, prev, hstate⟩ := hends.state
  obtain ⟨tail, htail, htailLog, htailMem⟩ := hends.wroteIn
  generalize runUpdate w st d = result at *
  dsimp only
  rw [hstate]
  cases houtcome with
  | @refused _ img count _ scratched copied =>
      obtain ⟨out, cached, rfl⟩ := scratched
      obtain ⟨front, hfront, hfrontLog, hfrontMem⟩ := copied.wroteIn
      rw [@madeWrites_eq d result.2.2 (front ++ tail) (by rw [htailLog, hfrontLog, List.append_assoc])]
      refine ⟨by rw [htail, hfront, applyWrites_append], .inl ⟨fun entry hentry => ?_, rfl⟩⟩
      exact (List.mem_append.mp hentry).elim (fun h => besideTarget_of_owns (hfrontMem entry h))
        fun h => besideTarget_of_audit _ (htailMem entry h)
  | @landed copied _ img payload count gen genA genB copy seen valid newer superblock answer =>
      obtain ⟨front, hfront, hfrontLog, hfrontMem⟩ := copy.wroteIn
      have hmade : madeWrites d result.2.2 = front ++ (superblockLba,
          writeSuperblock (some (updateTarget st.active)) genA genB st.volKey) :: tail := by
        refine madeWrites_eq ?_
        rw [htailLog, superblock.2, hfrontLog, List.append_assoc, List.append_assoc,
          List.singleton_append]
      rw [hmade]
      refine ⟨?_, .inr ⟨front, tail, gen, payload, genA, genB, rfl,
        fun entry hentry => besideTarget_of_owns (hfrontMem entry hentry), htailMem, ?_, valid, newer,
        fun keeps => ?_⟩⟩
      · rw [htail, superblock.1, hfront, applyWrites_append]
        rfl
      · rw [← hfront, ← slotSeen_succeed reads, seen]
      · obtain ⟨-, out, cached, rfl⟩ | ⟨-, -, hflush⟩ := answer
        · rfl
        · exact absurd keeps hflush

/-! ### Every step keeps the invariant -/

theorem RunsCommit.target {st : State} {disk : Disk} (runs : RunsCommit pubkey st disk c) :
    c.1 ≠ updateTarget st.active := by
  rw [runs.active]
  change c.1 ≠ c.1.other
  cases c.1 <;> decide

/-- Writes beside the superblock and the committed slot leave the last commit. -/
theorem BootsCommit.beside {d : Dev} (boots : BootsCommit pubkey d.disk c)
    (runs : RunsCommit pubkey st d.disk c)
    (beside : ∀ entry ∈ writes, BesideTarget (updateTarget st.active) entry.1) :
    lastCommit w st d writes c = c ∧ BootsCommit pubkey (applyWrites d.disk writes) c :=
  ⟨lastCommit_beside fun entry hentry => (beside entry hentry).1,
    boots.applyWrites_beside fun entry hentry =>
      ⟨(beside entry hentry).1, (beside entry hentry).2 c.1 runs.target⟩⟩

/-- Audit records after a superblock write leave the superblock. -/
theorem superblock_written (disk : Disk) (sector : Sector) {tail : List (Nat × Sector)}
    (audit : ∀ entry ∈ tail, AuditSector entry.1) :
    applyWrites disk ((superblockLba, sector) :: tail) superblockLba = sector := by
  have hfirst := applyWrites_numbered disk superblockLba [sector] 0 Nat.one_pos
  refine Eq.trans ?_ hfirst
  exact applyWrites_of_untouched _ tail _ fun entry hentry =>
    (besideTarget_of_audit .a (audit entry hentry)).1

/-- A good target slot and a superblock that names it boot the new system, whatever is
logged afterwards. -/
theorem bootsCommit_of_superblock {disk : Disk} {key : Bytes 32} {target : SlotId} {gen : UInt64}
    {payload : List UInt8} (genA genB : UInt64) {tail : List (Nat × Sector)}
    (good : slotOnDisk disk key pubkey target = some (payload, gen))
    (audit : ∀ entry ∈ tail, AuditSector entry.1) :
    BootsCommit pubkey (applyWrites disk
      ((superblockLba, writeSuperblock (some target) genA genB key) :: tail))
      (target, gen, payload) := by
  have hsb := superblock_written disk (writeSuperblock (some target) genA genB key) audit
  refine ⟨by rw [hsb, superblockTrusted_write], by rw [hsb, superblockSlot_write], ?_⟩
  rw [hsb, superblockKey_write, ← good]
  refine slotOnDisk_congr fun lba howns => applyWrites_of_untouched _ _ _ fun entry hentry heq => ?_
  rw [← heq] at howns
  rcases List.mem_cons.mp hentry with rfl | htail
  · exact superblock_not_owned target howns
  · exact SlotId.not_owns_audit howns (audit entry htail)

/-- Power may be lost after any number of the writes of an update. -/
theorem update_cut {d : Dev} (reads : w.ReadsSucceed)
    (boots : BootsCommit pubkey d.disk c) (runs : RunsCommit pubkey st d.disk c) (count : Nat) :
    let writes := (madeWrites d (runUpdate w st d).2.2).take count
    BootsCommit pubkey (applyWrites d.disk writes) (lastCommit w st d writes c) ∧
      c.2.1 ≤ (lastCommit w st d writes c).2.1 := by
  -- as long as the superblock is not written, nothing is committed
  have hold : ∀ {writes : List (Nat × Sector)},
      (∀ entry ∈ writes, BesideTarget (updateTarget st.active) entry.1) →
      BootsCommit pubkey (applyWrites d.disk writes) (lastCommit w st d writes c) ∧
        c.2.1 ≤ (lastCommit w st d writes c).2.1 := by
    intro writes hbeside
    obtain ⟨hlast, hboots⟩ := boots.beside runs hbeside
    rw [hlast]
    exact ⟨hboots, UInt64.le_refl _⟩
  obtain ⟨-, ⟨hbeside, -⟩ | ⟨front, tail, gen, payload, genA, genB, hmade, hfront, htail, hgood, hvalid,
    hnew, -⟩⟩ := update_writes reads st d
  · exact hold fun entry hentry => hbeside entry (List.mem_of_mem_take hentry)
  · dsimp only at hmade ⊢
    rw [hmade, List.take_append]
    cases hrest : count - front.length with
    | zero =>
        rw [List.take_zero, List.append_nil]
        exact hold fun entry hentry => hfront entry (List.mem_of_mem_take hentry)
    | succ =>
        rw [List.take_of_length_le (by omega), List.take_succ_cons]
        rw [lastCommit_superblock (List.mem_append_right _ List.mem_cons_self) hvalid]
        refine ⟨?_, ?_⟩
        · rw [applyWrites_append]
          rw [runs.pinned] at hgood
          exact bootsCommit_of_superblock genA genB hgood
            fun entry hentry => htail entry (List.mem_of_mem_take hentry)
        · have hless := hnew (by rw [runs.active]; rfl)
          rw [runs.generation] at hless
          exact UInt64.le_of_lt hless

/-- A whole update leaves a service that knows the last commit. -/
theorem update_runs {d : Dev} (reads : w.ReadsSucceed) (keeps : w.FailuresKeep)
    (boots : BootsCommit pubkey d.disk c) (runs : RunsCommit pubkey st d.disk c) :
    let after := runUpdate w st d
    after.2.2.disk = applyWrites d.disk (madeWrites d after.2.2) ∧
      RunsCommit pubkey after.2.1 after.2.2.disk
        (lastCommit w st d (madeWrites d after.2.2) c) := by
  obtain ⟨hdisk, ⟨hbeside, hsystem⟩ |
    ⟨front, tail, gen, payload, genA, genB, hmade, -, htail, -, hvalid, -,
    hcommitted⟩⟩ := update_writes reads st d
  · refine ⟨hdisk, ?_⟩
    obtain ⟨hlast, hboots⟩ := boots.beside runs hbeside
    have hsb := applyWrites_of_untouched d.disk _ superblockLba fun entry hentry =>
      (hbeside entry hentry).1
    rw [hlast]
    exact
      { pinned := (congrArg SystemView.pubkey hsystem).trans runs.pinned
        keyed := by
          rw [hdisk, hsb, ← runs.keyed]
          exact congrArg SystemView.volKey hsystem
        active := (congrArg SystemView.active hsystem).trans runs.active
        generation := (congrArg SystemView.generation hsystem).trans runs.generation }
  · have hsystem := hcommitted keeps
    refine ⟨hdisk, ?_⟩
    rw [lastCommit_superblock (hmade ▸ List.mem_append_right _ List.mem_cons_self) hvalid, hdisk,
      hmade, applyWrites_append]
    exact
      { pinned := (congrArg SystemView.pubkey hsystem).trans runs.pinned
        keyed := by
          rw [superblock_written _ _ htail, superblockKey_write]
          exact congrArg SystemView.volKey hsystem
        active := congrArg SystemView.active hsystem
        generation := congrArg SystemView.generation hsystem }

theorem BootsCommit.audited {disk : Disk} (boots : BootsCommit pubkey disk c)
    (audit : ∀ entry ∈ writes, AuditSector entry.1) :
    BootsCommit pubkey (applyWrites disk writes) c :=
  boots.applyWrites_beside fun entry hentry =>
    ⟨(besideTarget_of_audit .a (audit entry hentry)).1,
      fun howns => SlotId.not_owns_audit howns (audit entry hentry)⟩

/-- One step keeps the invariant, and the committed generation does not decrease. -/
theorem UpdateStep.keeps {before after : Power × Commit} (step : UpdateStep pubkey before after)
    (h : Consistent pubkey before) :
    Consistent pubkey after ∧ before.2.2.1 ≤ after.2.2.1 := by
  cases step with
  | boot w reads =>
      obtain ⟨st, d, hboot, hwrote, hsystem, -⟩ := BootsCommit.boot h reads
      rw [hboot]
      have hsb := hwrote.disk_eq superblock_not_audit
      obtain ⟨writes, hdisk, -, hmem⟩ := hwrote
      refine ⟨⟨?_, ?_⟩, UInt64.le_refl _⟩
      · rw [hdisk]
        exact BootsCommit.audited h hmem
      · exact
          { pinned := congrArg SystemView.pubkey hsystem
            keyed := by
              rw [hsb]
              exact congrArg SystemView.volKey hsystem
            active := congrArg SystemView.active hsystem
            generation := congrArg SystemView.generation hsystem }
  | bootCut _ reads =>
      obtain ⟨st, d, hboot, ⟨writes, -, hlog, hmem⟩, -⟩ := BootsCommit.boot h reads
      rw [hboot, madeWrites_eq hlog]
      exact ⟨BootsCommit.audited h fun entry hentry => hmem entry (List.mem_of_mem_take hentry),
        UInt64.le_refl _⟩
  | stage _ outside =>
      obtain ⟨boots, runs⟩ := h
      have hsb := outside superblockLba (.inl rfl)
      refine ⟨⟨boots.congr hsb fun lba howns => outside lba (.inr ⟨_, howns⟩), ?_⟩,
        UInt64.le_refl _⟩
      exact { runs with keyed := runs.keyed.trans (congrArg superblockKey hsb.symm) }
  | stageOff _ outside =>
      exact ⟨BootsCommit.congr h (outside _ (.inl rfl)) fun lba howns =>
        outside lba (.inr ⟨_, howns⟩), UInt64.le_refl _⟩
  | @update st d _ w reads keeps =>
      obtain ⟨boots, runs⟩ := h
      rw [handle_beginUpdate]
      obtain ⟨hdisk, hruns⟩ := update_runs reads keeps boots runs
      obtain ⟨hboots, hgrows⟩ := update_cut reads boots runs
        (madeWrites d (runUpdate w st d).2.2).length
      rw [List.take_length] at hboots hgrows
      refine ⟨⟨?_, hruns⟩, hgrows⟩
      rw [hdisk]
      exact hboots
  | updateCut w reads count =>
      rw [handle_beginUpdate]
      exact update_cut reads h.1 h.2 count

/-- Runs keep the invariant; the committed generation never decreases. -/
theorem UpdateStep.run_keeps {before after : Power × Commit}
    (run : Relation.ReflTransGen (UpdateStep pubkey) before after) (h : Consistent pubkey before) :
    Consistent pubkey after ∧ before.2.2.1 ≤ after.2.2.1 := by
  induction run with
  | refl => exact ⟨h, UInt64.le_refl _⟩
  | tail _ step ih =>
      obtain ⟨hkept, hgrows⟩ := step.keeps ih.1
      exact ⟨hkept, UInt64.le_trans ih.2 hgrows⟩

theorem Consistent.bootsCommit {power : Power} (h : Consistent pubkey (power, c)) :
    BootsCommit pubkey power.disk c := by
  cases power with
  | off => exact h
  | on => exact h.1

end Redoubt.Storage
