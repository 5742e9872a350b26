import Redoubt.Storage.MountFaults

/-!
# The update request

The agent writes only into the window of the slot that is not active.  A request
either is refused, then nothing but that slot and the audit log was written, or it
commits: it writes the superblock once, after the slot was found good.
-/

namespace Redoubt.Storage

open Redoubt.Foundation Redoubt.Crypto

variable {w : World}

/-! ### Sectors the agent writes -/

theorem readStaging_onlyRead (fuel done : Nat) (d : Dev) :
    d.OnlyRead (UpdateAgent.readStaging w fuel done d).2 := by
  induction fuel generalizing done d with
  | zero => exact .refl
  | succ fuel ih =>
      have hread := br_onlyRead w d (stagingLba + done / sectorSize) chunkSectors
      rw [UpdateAgent.readStaging]
      generalize br w d (stagingLba + done / sectorSize) chunkSectors = result at hread ⊢
      obtain ⟨_ | data, after⟩ := result
      · exact hread
      · have hrest := ih (done + chunkSectors * sectorSize) after
        dsimp only
        generalize UpdateAgent.readStaging w fuel (done + chunkSectors * sectorSize) after = rest
          at hrest ⊢
        obtain ⟨_ | tail, last⟩ := rest
        · exact hread.trans hrest
        · exact hread.trans hrest

/-- The sectors of a window. -/
def InWindow (lba len sector : Nat) : Prop := lba ≤ sector ∧ sector < lba + len

theorem readStaging_congr {d d' : Dev} (disk : d'.disk = d.disk) (reads : d'.reads = d.reads)
    (fuel done : Nat) :
    (UpdateAgent.readStaging w fuel done d').1 = (UpdateAgent.readStaging w fuel done d).1 := by
  induction fuel generalizing done d d' with
  | zero => rfl
  | succ fuel ih =>
      rw [UpdateAgent.readStaging, UpdateAgent.readStaging]
      unfold br
      rw [reads, disk]
      cases w.read d.reads (stagingLba + done / sectorSize) with
      | none => rfl
      | some seen =>
          dsimp only
          have hrest := @ih { d with reads := d.reads + 1 }
            { d' with disk := d.disk, reads := d.reads + 1 } rfl rfl (done + chunkSectors * sectorSize)
          generalize UpdateAgent.readStaging w fuel _
            { d' with disk := d.disk, reads := d.reads + 1 } = rest'
            at hrest ⊢
          generalize UpdateAgent.readStaging w fuel _ { d with reads := d.reads + 1 } = rest at hrest ⊢
          obtain ⟨_, _⟩ := rest'
          obtain ⟨_ | _, _⟩ := rest <;> cases hrest <;> rfl

/-- The agent finds this image in the staging area, correctly signed. -/
def Staged (w : World) (pubkey : Bytes 32) (d : Dev) (img : List UInt8) : Prop :=
  ∃ pkg sig, (UpdateAgent.readStaging w (stagingSectors / chunkSectors) 0 d).1 = some pkg ∧
    parseStagePackage pkg = some (img, sig) ∧ Ed25519.accepts pubkey img sig = true

/-- What an agent leaves: a front part of the sectors of the staged image. -/
structure Copied (w : World) (pubkey : Bytes 32) (target : SlotId) (d : Dev) (img : List UInt8)
    (count : Nat) (after : Dev) : Prop where
  made : d.Made ((imageSectors target img).take count) after
  window : count ≤ 1000
  staged : count ≠ 0 → Staged w pubkey d img

namespace Copied

variable {pubkey : Bytes 32} {target : SlotId} {d after last : Dev} {img : List UInt8} {count : Nat}

theorem nothing (made : d.Made [] after) : Copied w pubkey target d [] 0 after :=
  ⟨made, Nat.zero_le _, fun h => absurd rfl h⟩

theorem quiet (h : Copied w pubkey target d img count after) (rest : after.Made [] last) :
    Copied w pubkey target d img count last :=
  ⟨h.made.quiet rest, h.window, h.staged⟩

theorem inWindow (h : Copied w pubkey target d img count after) :
    d.WroteIn (InWindow target.hdrLba 1000) after := by
  refine h.made.wroteIn fun entry hentry => ?_
  rw [imageSectors, ← numbered_take] at hentry
  have hrange := mem_numbered hentry
  have hwindow := h.window
  rw [List.length_take] at hrange
  exact ⟨hrange.1, by omega⟩

/-- The window lies in the target slot. -/
theorem wroteIn (h : Copied w pubkey target d img count after) : d.WroteIn target.Owns after := by
  refine h.inWindow.mono fun lba hlba => ?_
  unfold InWindow at hlba
  unfold SlotId.Owns
  rw [payloadLba_eq]
  omega

end Copied

theorem agent_copies (pubkey : Bytes 32) (target : SlotId) (d : Dev) : ∃ img count,
    Copied w pubkey target d img count
      (UpdateAgent.main w pubkey target.hdrLba (windowLen target) d).2 := by
  have hwindow : windowLen target = 1000 := by cases target <;> rfl
  have honly := @readStaging_onlyRead w (stagingSectors / chunkSectors) 0 d
  unfold UpdateAgent.main
  generalize hread : UpdateAgent.readStaging w (stagingSectors / chunkSectors) 0 d = result at honly ⊢
  obtain ⟨_ | pkg, after⟩ := result
  · exact ⟨[], 0, .nothing (.of_onlyRead honly)⟩
  dsimp only
  cases hparse : parseStagePackage pkg with
  | none => exact ⟨[], 0, .nothing (.of_onlyRead honly)⟩
  | some package =>
      obtain ⟨image, sig⟩ := package
      dsimp only
      by_cases hsigned : (!Ed25519.accepts pubkey image sig) = true
      · rw [if_pos hsigned]
        exact ⟨[], 0, .nothing (.of_onlyRead honly)⟩
      · obtain ⟨ok, last, count, hcopy, hmade, -, hinside, -⟩ := @copyImage_front w target.hdrLba
          (windowLen target) image image.length 0 0 after (.inl rfl) (fun _ => rfl) (by omega)
        rw [if_neg hsigned, hcopy]
        refine ⟨image, count, ?_, by omega,
          fun _ => ⟨pkg, sig, by rw [hread], hparse, by simpa using hsigned⟩⟩
        cases ok with
        | false => exact (Dev.Made.of_onlyRead honly).trans hmade
        | true => exact (Dev.Made.of_onlyRead honly).trans hmade

/-- An agent that is stopped leaves a front part of its writes. -/
theorem runAgent_copies (pubkey : Bytes 32) (target : SlotId) (d : Dev) : ∃ img count,
    Copied w pubkey target d img count (runAgent w pubkey target d).2 := by
  obtain ⟨img, count, hcopied⟩ := @agent_copies w pubkey target d
  unfold runAgent
  generalize UpdateAgent.main w pubkey target.hdrLba (windowLen target) d = result at hcopied ⊢
  obtain ⟨code, after⟩ := result
  dsimp only at hcopied ⊢
  cases w.agent d.spawns with
  | none => exact ⟨img, count, hcopied⟩
  | some stopped =>
      have hfront : (after.log.drop d.log.length).take stopped.1 =
          (imageSectors target img).take (min stopped.1 count) := by
        rw [hcopied.made.2, List.drop_left, List.take_take]
      refine ⟨img, min stopped.1 count, ⟨?_, ?_⟩, (Nat.min_le_right _ _).trans hcopied.window,
        fun h => hcopied.staged (by omega)⟩
      · rw [← hfront]
      · rw [← hfront]

/-! ### Outcomes of the request -/

/-- The reply of a failed request. -/
def IsError (reply : List UInt8) : Prop := reply.take 3 = ascii "err"

instance (reply : List UInt8) : Decidable (IsError reply) :=
  inferInstanceAs (Decidable (_ = _))

theorem isError_append_iff {front rest : List UInt8} (long : 3 ≤ front.length) :
    IsError (front ++ rest) ↔ IsError front := by
  unfold IsError
  rw [List.take_append_of_le_length long]

/-- What the request validates before it commits: the target slot with its generation
and payload. -/
def validated (w : World) (st : State) (d : Dev) : Option (SlotId × UInt64 × List UInt8) :=
  let target := updateTarget st.active
  let d := { d with derives := d.derives + 2, spawns := d.spawns + 1 }
  let (_, d) := runAgent w st.pubkey target d
  match validateAndLoad w st.volKey target st.pubkey st.workspace d with
  | (none, _, _) => none
  | (some (len, gen), out, _) => some (target, gen, out.read 0 len)

theorem validated_of_seen (st : State) (d : Dev) {payload : List UInt8} {gen : UInt64}
    (h : slotSeen w st.volKey st.pubkey (updateTarget st.active)
      (runAgent w st.pubkey (updateTarget st.active)
        { d with derives := d.derives + 2, spawns := d.spawns + 1 }).2 = some (payload, gen)) :
    validated w st d = some (updateTarget st.active, gen, payload) := by
  unfold validated
  dsimp only
  generalize runAgent w st.pubkey (updateTarget st.active)
    { d with derives := d.derives + 2, spawns := d.spawns + 1 } = result at h ⊢
  obtain ⟨code, copied⟩ := result
  dsimp only at h ⊢
  obtain ⟨out, after, -, hload, hread⟩ :=
    validateAndLoad_eq w st.volKey (updateTarget st.active) st.pubkey st.workspace copied
  rw [hload, h]
  exact congrArg (fun bytes => some (updateTarget st.active, gen, bytes)) (hread _ h)

/-- A result with perhaps one audit record at its end. -/
def Ends (w : World) (result : List UInt8 × State × Dev) (reply : List UInt8) (mid : State)
    (written : Dev) :
    Prop :=
  result = (reply, mid, written) ∨
    ∃ text, result = (reply, (auditRaw w mid text written).1, (auditRaw w mid text written).2)

namespace Ends

variable {result : List UInt8 × State × Dev} {reply : List UInt8} {mid : State} {written : Dev}

theorem reply_eq (h : Ends w result reply mid written) : result.1 = reply := by
  rcases h with rfl | ⟨text, rfl⟩ <;> rfl

theorem state (h : Ends w result reply mid written) :
    ∃ seq prev, result.2.1 = { mid with auditSeq := seq, auditPrev := prev } := by
  rcases h with rfl | ⟨text, rfl⟩
  · exact ⟨mid.auditSeq, mid.auditPrev, rfl⟩
  · exact auditRaw_state w mid written text

theorem wroteNext (h : Ends w result reply mid written) :
    written.WroteIn (NextRecord mid) result.2.2 := by
  rcases h with rfl | ⟨text, rfl⟩
  · exact .refl
  · exact auditRaw_next w mid written text

theorem wroteIn (h : Ends w result reply mid written) : written.WroteIn AuditSector result.2.2 :=
  h.wroteNext.mono fun _ => nextRecord_audit

end Ends

/-- Only the workspace and the mark of what is in it differ. -/
def State.Scratched (st mid : State) : Prop :=
  ∃ out cached, mid = { st with workspace := out, cachedApp := cached }

theorem State.Scratched.refl (st : State) : st.Scratched st := ⟨st.workspace, st.cachedApp, rfl⟩

/-- How an update request ends, before its audit record: it is refused and at most a part of
the image was copied, or the superblock is written after the target slot was found good and
newer.  A superblock write that is reported as failed is answered with an error all the same. -/
inductive UpdateOutcome (w : World) (st : State) (d : Dev) : List UInt8 → State → Dev → Prop where
  | refused {reply : List UInt8} {mid : State} {written : Dev} {img : List UInt8} {count : Nat}
      (error : IsError reply) (scratched : st.Scratched mid)
      (copied : Copied w st.pubkey (updateTarget st.active) d img count written) :
      UpdateOutcome w st d reply mid written
  | landed {reply : List UInt8} {mid : State} {copied written : Dev} {img payload : List UInt8}
      {count : Nat}
      {gen genA genB : UInt64} (copy : Copied w st.pubkey (updateTarget st.active) d img count copied)
      (seen : slotSeen w st.volKey st.pubkey (updateTarget st.active) copied = some (payload, gen))
      (valid : validated w st d = some (updateTarget st.active, gen, payload))
      (newer : st.active.isSome → st.generation < gen)
      (superblock : copied.Made
        [(superblockLba, writeSuperblock (some (updateTarget st.active)) genA genB st.volKey)] written)
      (answer : ¬ IsError reply ∧
          { st with active := some (updateTarget st.active), generation := gen }.Scratched mid ∨
        IsError reply ∧ st.Scratched mid ∧ ¬ w.FailuresKeep) :
      UpdateOutcome w st d reply mid written

/-- A commit is refused or lost and nothing is written, or the superblock is written. -/
theorem commitSlot_cases (st : State) (newActive : SlotId) (gen : UInt64) (d : Dev) :
    (∃ after, commitSlot w st newActive gen d = (false, st, after) ∧ d.Made [] after) ∨
      ∃ ok genA genB after, commitSlot w st newActive gen d =
          (ok, if ok then { st with active := some newActive, generation := gen } else st, after) ∧
        (ok = false → ¬ w.FailuresKeep) ∧ (st.active.isSome → st.generation < gen) ∧
        d.Made [(superblockLba, writeSuperblock (some newActive) genA genB st.volKey)] after := by
  unfold commitSlot
  by_cases hstale : st.active.isSome ∧ gen ≤ st.generation
  · rw [if_pos hstale]
    exact .inl ⟨d, rfl, .of_onlyRead .refl⟩
  · rw [if_neg hstale]
    dsimp only
    generalize (if st.active.any (· ≠ newActive) then st.generation else 0) = kept
    generalize (if newActive = .a then gen else kept) = genA
    generalize (if newActive = .b then gen else kept) = genB
    have hnewer : st.active.isSome → st.generation < gen :=
      fun hactive => UInt64.not_le.mp fun hold => hstale ⟨hactive, hold⟩
    obtain ⟨-, after, hbw, hmade, -⟩ | ⟨fault, after, hfault, hbw, hmade⟩ :=
      bw_cases w d superblockLba [writeSuperblock (some newActive) genA genB st.volKey]
    · rw [hbw]
      exact .inr ⟨true, genA, genB, after, rfl, fun h => absurd h.symm Bool.false_ne_true, hnewer, hmade⟩
    · rw [hbw]
      cases fault with
      | short count =>
          rw [List.length_singleton, WriteFault.landed, Nat.sub_self, Nat.min_zero] at hmade
          exact .inl ⟨after, rfl, hmade⟩
      | flush => exact .inr ⟨false, genA, genB, after, rfl, fun _ keeps => keeps _ hfault, hnewer, hmade⟩

theorem finishUpdate_cases {st : State} {d copied : Dev} {img : List UInt8} {count : Nat} (code : UInt64)
    (copy : Copied w st.pubkey (updateTarget st.active) d img count copied)
    (hvalidated : ∀ payload gen,
      slotSeen w st.volKey st.pubkey (updateTarget st.active) copied = some (payload, gen) →
      validated w st d = some (updateTarget st.active, gen, payload)) :
    ∃ reply mid written, UpdateOutcome w st d reply mid written ∧
      Ends w (finishUpdate w { st with cachedApp := none } (updateTarget st.active) code copied)
        reply mid written := by
  unfold finishUpdate
  dsimp only
  split_ifs
  · obtain ⟨out, after, honly, hload, -⟩ :=
      validateAndLoad_eq w st.volKey (updateTarget st.active) st.pubkey st.workspace copied
    have hread := Dev.Made.of_onlyRead honly
    rw [hload]
    cases hseen : slotSeen w st.volKey st.pubkey (updateTarget st.active) copied with
    | none =>
        exact ⟨_, _, _, .refused (by decide) ⟨out, none, rfl⟩ (copy.quiet hread), .inr ⟨_, rfl⟩⟩
    | some stored =>
        obtain ⟨payload, gen⟩ := stored
        dsimp only [Option.map_some]
        obtain ⟨last, hcommit, hmade⟩ | ⟨ok, genA, genB, last, hcommit, hflush, hnew, hmade⟩ :=
          @commitSlot_cases w { st with cachedApp := none, workspace := out }
            (updateTarget st.active) gen after
        · rw [hcommit]
          exact ⟨_, _, _, .refused (by decide) ⟨out, none, rfl⟩ ((copy.quiet hread).quiet hmade),
            .inr ⟨_, rfl⟩⟩
        · have hlanded := fun reply mid => @UpdateOutcome.landed w st d reply mid copied last img payload
            count gen genA genB copy hseen (hvalidated payload gen hseen) hnew (hread.trans hmade)
          rw [hcommit]
          cases ok with
          | true =>
              refine ⟨_, _, _, hlanded _ _ (.inl ⟨?_, out, none, rfl⟩), .inr ⟨_, rfl⟩⟩
              rw [List.append_assoc, isError_append_iff (by decide)]
              decide
          | false =>
              exact ⟨_, _, _, hlanded _ _ (.inr ⟨by decide, ⟨out, none, rfl⟩, hflush rfl⟩), .inr ⟨_, rfl⟩⟩
  all_goals exact ⟨_, _, _, .refused (by decide) ⟨st.workspace, none, rfl⟩ copy, .inr ⟨_, rfl⟩⟩

/-- Every update request is refused or writes the superblock. -/
theorem runUpdate_cases (st : State) (d : Dev) : ∃ reply mid written,
    UpdateOutcome w st d reply mid written ∧ Ends w (runUpdate w st d) reply mid written := by
  -- a request that never starts the agent leaves the disk alone
  have hstop : ∀ {reply : List UInt8} {after : Dev}, IsError reply → d.OnlyRead after →
      ∃ reply' mid written, UpdateOutcome w st d reply' mid written ∧
        Ends w (reply, { st with cachedApp := none }, after) reply' mid written :=
    fun error honly =>
      ⟨_, _, _, .refused error ⟨st.workspace, none, rfl⟩ (.nothing (.of_onlyRead honly)), .inl rfl⟩
  have hfmt : ∀ {front : List UInt8} {errno : UInt64}, 3 ≤ front.length → IsError front →
      IsError (fmtErr front errno) := fun hlong => (isError_append_iff hlong).mpr
  unfold runUpdate
  dsimp only
  by_cases hblock : (!st.block) = true
  · rw [if_pos hblock]
    exact hstop (by decide) .refl
  rw [if_neg hblock]
  cases w.derive d.derives with
  | some =>
      exact hstop (hfmt (by decide) (by decide)) ⟨rfl, rfl, rfl⟩
  | none =>
      cases w.derive (d.derives + 1) with
      | some =>
          exact hstop (hfmt (by decide) (by decide)) ⟨rfl, rfl, rfl⟩
      | none =>
          dsimp only
          cases w.spawn (d.spawns + 1 - 1) with
          | some =>
              exact hstop (hfmt (by decide) (by decide)) ⟨rfl, rfl, rfl⟩
          | none =>
              obtain ⟨img, count, hmade, hwindow, hstaged⟩ := @runAgent_copies w st.pubkey
                (updateTarget st.active) { d with derives := d.derives + 2, spawns := d.spawns + 1 }
              refine @finishUpdate_cases w st d _ img count _ ⟨hmade, hwindow, fun hcount => ?_⟩
                fun payload gen hseen => validated_of_seen st d hseen
              obtain ⟨pkg, sig, hread, hrest⟩ := hstaged hcount
              exact ⟨pkg, sig,
                (@readStaging_congr w { d with derives := d.derives + 2, spawns := d.spawns + 1 }
                d rfl rfl _ _).trans hread, hrest⟩

/-! ### Refused updates -/

/-- The request that starts an update. -/
def beginUpdate : Request := .config (ascii "begin-update")

theorem handle_beginUpdate (st : State) (d : Dev) : handle w st beginUpdate d = runUpdate w st d := by
  have hset : stripPrefix (ascii "begin-update") (ascii "set ") = none := by decide
  unfold handle beginUpdate handleConfig
  dsimp only
  rw [hset]
  exact if_pos rfl

theorem SlotId.owns_below {slot : SlotId} {lba : Nat} (h : slot.Owns lba) : lba < stagingLba := by
  unfold SlotId.Owns at h
  cases slot <;> simp only [SlotId.hdrLba, SlotId.payloadLba, slotAHdrLba, slotAPayloadLba,
    slotBHdrLba, slotBPayloadLba, stagingLba] at * <;> omega

/-- A mount of the disk looks at this slot: a trusted superblock names it, or names another
one that is not good. -/
def LooksAt (disk : Disk) (pubkey : Bytes 32) (slot : SlotId) : Prop :=
  superblockTrusted (disk superblockLba) = true ∧
    ∃ named, superblockSlot (disk superblockLba) = some named ∧
    (named = slot ∨ slotOnDisk disk (superblockKey (disk superblockLba)) pubkey named = none)

/-- Writes in one slot keep the selection exactly when a mount does not look at the slot or
finds there what was there before. -/
theorem selection_eq_iff {disk disk' : Disk} {pubkey : Bytes 32} {target : SlotId}
    (superblock : disk' superblockLba = disk superblockLba)
    (other : ∀ key, slotOnDisk disk' key pubkey target.other = slotOnDisk disk key pubkey target.other) :
    selection disk' pubkey = selection disk pubkey ↔ (LooksAt disk pubkey target →
      slotOnDisk disk' (superblockKey (disk superblockLba)) pubkey target =
        slotOnDisk disk (superblockKey (disk superblockLba)) pubkey target) := by
  unfold LooksAt
  cases htrust : superblockTrusted (disk superblockLba) with
  | false =>
      rw [selection_untrusted htrust, selection_untrusted (by rw [superblock, htrust])]
      simp
  | true =>
      have hkept := other (superblockKey (disk superblockLba))
      cases hnamed : superblockSlot (disk superblockLba) with
      | none =>
          rw [selection_unnamed hnamed, selection_unnamed (by rw [superblock, hnamed])]
          simp
      | some named =>
          rw [selection_of_trusted htrust hnamed,
            selection_of_trusted (by rw [superblock, htrust]) (by rw [superblock, hnamed]), superblock]
          have htwice : target.other.other = target := by cases target <;> rfl
          have hnot : target.other ≠ target := by cases target <;> decide
          by_cases hsame : named = target
          · subst hsame
            rw [hkept, forall_prop_of_true ⟨rfl, named, rfl, .inl rfl⟩]
            generalize slotOnDisk disk' (superblockKey (disk superblockLba)) pubkey named = after
            generalize slotOnDisk disk (superblockKey (disk superblockLba)) pubkey named = before
            generalize slotOnDisk disk (superblockKey (disk superblockLba)) pubkey named.other = beside
            rcases after with _ | ⟨payload', gen'⟩ <;> rcases before with _ | ⟨payload, gen⟩ <;>
              rcases beside with _ | beside <;> simp [hnot, hnot.symm, and_comm]
          · rw [SlotId.eq_other hsame, hkept, htwice]
            generalize slotOnDisk disk' (superblockKey (disk superblockLba)) pubkey target = after
            generalize slotOnDisk disk (superblockKey (disk superblockLba)) pubkey target = before
            cases hbeside : slotOnDisk disk (superblockKey (disk superblockLba)) pubkey target.other with
            | some => simp [hnot, hbeside]
            | none =>
                rw [forall_prop_of_true ⟨rfl, _, rfl, .inr hbeside⟩]
                rcases after with _ | ⟨payload', gen'⟩ <;> rcases before with _ | ⟨payload, gen⟩ <;>
                  simp [and_comm]

theorem bootedFrom_inj {first second : Option (SlotId × UInt64 × List UInt8)} :
    bootedFrom first = bootedFrom second ↔ first = second := by
  cases first <;> cases second <;> simp [bootedFrom, Prod.ext_iff]

/-- The superblock and the slot that is not the target are as they were. -/
theorem Copied.keeps {pubkey : Bytes 32} {target : SlotId} {d after : Dev} {img : List UInt8}
    {count : Nat} (h : Copied w pubkey target d img count after) :
    after.disk superblockLba = d.disk superblockLba ∧ ∀ key pubkey, ∀ slot ≠ target,
      slotOnDisk after.disk key pubkey slot = slotOnDisk d.disk key pubkey slot := by
  refine ⟨h.wroteIn.disk_eq (superblock_not_owned _), fun key pubkey slot hslot => ?_⟩
  refine slotOnDisk_congr fun lba howns => h.wroteIn.disk_eq fun htarget => ?_
  rw [SlotId.eq_other hslot] at howns
  exact SlotId.not_owns_other htarget howns

/-- The agent installs a correctly signed image in a slot. -/
theorem agent_installs {pubkey : Bytes 32} (reads : w.ReadsSucceed) (writes : w.WritesSucceed)
    (slot : SlotId) (d : Dev) {img rest : List UInt8} {sig : Bytes 64}
    (staged : sectorBytes (d.disk.sectors stagingLba stagingSectors) =
      writeStagePackage img sig ++ rest)
    (nonempty : img ≠ []) (fits : img.length ≤ 512 * windowLen slot)
    (signed : Ed25519.accepts pubkey img sig = true) :
    ∃ after, UpdateAgent.main w pubkey slot.hdrLba (windowLen slot) d =
        (UpdateAgent.exitApplied, after) ∧ d.Made (imageSectors slot img) after := by
  have hmax : slotImageMax = 513024 := by decide
  have hwindow : windowLen slot = 1000 := by cases slot <;> rfl
  exact agent_applies reads writes slot.hdrLba (windowLen slot) d staged nonempty (by omega)
    (by omega) signed

/-- A request whose agent succeeds goes on with the target slot. -/
theorem runUpdate_of_applied {st : State} {d copied : Dev} (block : st.block = true)
    (stage : w.derive d.derives = none) (slot : w.derive (d.derives + 1) = none)
    (spawned : w.spawn d.spawns = none) (agents : ∀ n, w.agent n = none)
    (applied : UpdateAgent.main w st.pubkey (updateTarget st.active).hdrLba
      (windowLen (updateTarget st.active))
      { d with derives := d.derives + 2, spawns := d.spawns + 1 } = (0, copied)) :
    runUpdate w st d =
      finishUpdate w { st with cachedApp := none } (updateTarget st.active) 0 copied := by
  unfold runUpdate runAgent
  simp only [block, stage, slot, spawned, agents, applied, Bool.not_true, Bool.false_eq_true, if_false,
    Nat.add_sub_cancel]

/-- An image that is not newer is refused after it was copied. -/
theorem finishUpdate_stale {st : State} {target : SlotId} {copied : Dev} {payload : List UInt8}
    {gen : UInt64} (seen : slotSeen w st.volKey st.pubkey target copied = some (payload, gen))
    (active : st.active.isSome) (stale : gen ≤ st.generation) :
    ∃ st' d', finishUpdate w st target 0 copied = (ascii "err: commit failed", st', d') ∧
      copied.WroteIn AuditSector d' := by
  obtain ⟨out, after, honly, hload, -⟩ :=
    validateAndLoad_eq w st.volKey target st.pubkey st.workspace copied
  unfold finishUpdate
  dsimp only
  rw [if_pos rfl, hload, seen]
  dsimp only [Option.map_some]
  rw [commitSlot, if_pos ⟨active, stale⟩]
  exact ⟨_, _, rfl, honly.wroteIn.trans (auditRaw_wroteIn ..)⟩

/-- The disk with the sample image staged. -/
def stageSample (disk : Disk) : Disk :=
  let pkg := padToSector (writeStagePackage sampleImage sampleImageSignature)
  applyWrites disk (numbered stagingLba (toSectors (pkg.length / 512) pkg))

theorem sampleImage_length : sampleImage.length = 1024 + factoryPayload.length :=
  length_buildSlotImage ..

theorem sampleImage_short : sampleImage.length ≤ 4000 := by
  have hpayload : factoryPayload.length ≤ 1000 := by decide +kernel
  rw [sampleImage_length]
  omega

/-- A short package written to the staging area is what the agent will read. -/
theorem staged_short {disk staged : Disk} {pkg : List UInt8} (short : pkg.length ≤ 4200)
    (hstaged : staged = applyWrites disk (numbered stagingLba
      (toSectors ((padToSector pkg).length / 512) (padToSector pkg)))) :
    (∀ lba < stagingLba, staged lba = disk lba) ∧
    ∃ rest, sectorBytes (staged.sectors stagingLba stagingSectors) = pkg ++ rest := by
  rw [hstaged]
  have hpad := length_padToSector pkg
  have hwrite : Volume.writeLba { disk, sectors := 32768 } stagingLba (padToSector pkg) =
      some { disk := applyWrites disk (numbered stagingLba
        (toSectors ((padToSector pkg).length / 512) (padToSector pkg))), sectors := 32768 } := by
    refine if_neg ?_
    change ¬ 32768 < 20480 + (padToSector pkg).length / 512
    omega
  refine ⟨fun lba hlba => (Volume.sectors_writeLba hwrite).2 lba (.inl hlba), ?_⟩
  refine staged_sectors ?_ hwrite
  unfold stagingSectors sectorSize
  omega

theorem stageSample_spec (disk : Disk) :
    (∀ lba < stagingLba, stageSample disk lba = disk lba) ∧
    ∃ rest, sectorBytes ((stageSample disk).sectors stagingLba stagingSectors) =
      writeStagePackage sampleImage sampleImageSignature ++ rest := by
  have himage := sampleImage_short
  have hlen := length_writeStagePackage sampleImage sampleImageSignature
  exact staged_short (by omega) (by rw [stageSample])

/-- A service on slot `slot` of generation 2, with the correctly signed image of generation 1
staged, copies the image into the other slot and then refuses it. -/
theorem stale_update_copied {st : State} {d : Dev} {slot : SlotId} {payload rest : List UInt8}
    (mounted : st.system = (State.factory true samplePublic).system.mounted sampleKey slot 2 payload)
    (staged : sectorBytes (d.disk.sectors stagingLba stagingSectors) =
      writeStagePackage sampleImage sampleImageSignature ++ rest) :
    ∃ st' d', handle World.faultless st beginUpdate d = (ascii "err: commit failed", st', d') ∧
      slotOnDisk d'.disk sampleKey samplePublic slot.other = some (factoryPayload, 1) ∧
      d.WroteIn (fun lba => slot.other.Owns lba ∨ AuditSector lba) d' ∧
      ∃ tail, madeWrites d d' = imageSectors slot.other sampleImage ++ tail := by
  have hblock : st.block = true := congrArg SystemView.block mounted
  have hactive : st.active = some slot := congrArg SystemView.active mounted
  have hvolKey : st.volKey = sampleKey := congrArg SystemView.volKey mounted
  have hgen : st.generation = 2 := congrArg SystemView.generation mounted
  have hpubkey : st.pubkey = samplePublic := pubkey_of_mounted mounted
  have htarget : updateTarget st.active = slot.other := by rw [hactive]; rfl
  have himage := sampleImage_short
  obtain ⟨copied, hagent, hcopied⟩ := @agent_installs World.faultless samplePublic
    World.faultless_reads World.faultless_writes slot.other
    { d with derives := d.derives + 2, spawns := d.spawns + 1 } sampleImage rest
    sampleImageSignature staged (List.ne_nil_of_length_pos (by rw [sampleImage_length]; omega))
    (himage.trans (by cases slot <;> decide)) sampleImageSignature_accepted
  have hstale : slotOnDisk copied.disk sampleKey samplePublic slot.other = some (factoryPayload, 1) := by
    rw [hcopied.1, sampleImage]
    exact slotOnDisk_installImage d.disk factoryPayload_room (by decide) sampleSignature_accepted
  have hrun := @runUpdate_of_applied World.faultless st d copied hblock rfl rfl rfl
    (fun _ => rfl) (by rw [htarget, hpubkey]; exact hagent)
  obtain ⟨st', d', hfinish, haudit⟩ := @finishUpdate_stale World.faultless
    { st with cachedApp := none } (updateTarget st.active) copied factoryPayload 1
    (by
      rw [slotSeen_succeed World.faultless_reads]
      change slotOnDisk copied.disk st.volKey st.pubkey _ = _
      rw [htarget, hvolKey, hpubkey, hstale])
    (by change st.active.isSome = true; rw [hactive]; rfl)
    (by change 1 ≤ st.generation; rw [hgen]; decide)
  obtain ⟨img, count, hagentCopied⟩ := @agent_copies World.faultless samplePublic slot.other
    { d with derives := d.derives + 2, spawns := d.spawns + 1 }
  rw [hagent] at hagentCopied
  have hwrote : d.WroteIn slot.other.Owns copied := hagentCopied.wroteIn
  refine ⟨st', d', by rw [handle_beginUpdate, hrun, hfinish], ?_,
    (hwrote.mono fun _ => .inl).trans (haudit.mono fun _ => .inr), ?_⟩
  · rw [slotOnDisk_wroteIn haudit, hstale]
  · obtain ⟨tail, -, hlog, -⟩ := haudit
    exact ⟨tail, madeWrites_eq (by rw [hlog, hcopied.2, List.append_assoc])⟩

theorem staged_wroteIn {d d' : Dev} {slot : SlotId} {pkg : List UInt8}
    (h : d.WroteIn (fun lba => slot.Owns lba ∨ AuditSector lba) d')
    (staged : sectorBytes (d.disk.sectors stagingLba stagingSectors) = pkg) :
    sectorBytes (d'.disk.sectors stagingLba stagingSectors) = pkg := by
  rw [← staged]
  refine congrArg sectorBytes (List.map_congr_left fun index _ => h.disk_eq ?_)
  rintro (howns | haudit)
  · exact absurd (SlotId.owns_below howns) (Nat.not_lt.mpr (Nat.le_add_right _ _))
  · unfold AuditSector auditEndLba stagingLba at haudit
    omega

/-- A system of generation 2 in slot A, an older image staged. -/
def stagedCommit : Disk := stageSample (sampleDisk (writeSuperblock (some .a) 2 0 sampleKey) .a 2)

theorem stagedCommit_boots : BootsCommit samplePublic stagedCommit (.a, 2, factoryPayload) ∧
    superblockKey (stagedCommit superblockLba) = sampleKey ∧
    ∃ rest, sectorBytes (stagedCommit.sectors stagingLba stagingSectors) =
      writeStagePackage sampleImage sampleImageSignature ++ rest := by
  obtain ⟨hbelow, rest, hstaged⟩ :=
    stageSample_spec (sampleDisk (writeSuperblock (some .a) 2 0 sampleKey) .a 2)
  obtain ⟨hcommit, hkey⟩ := sampleDisk_commit .a 2 2 0
  unfold stagedCommit
  generalize sampleDisk (writeSuperblock (some .a) 2 0 sampleKey) .a 2 = plain at *
  have hboots : BootsCommit samplePublic (stageSample plain) (.a, 2, factoryPayload) :=
    hcommit.congr (hbelow _ (by decide)) fun lba howns => hbelow lba (SlotId.owns_below howns)
  rw [← hbelow _ (by decide)] at hkey
  exact ⟨hboots, hkey, rest, hstaged⟩

/-- The superblock names slot A, which is empty; slot B holds generation 2, and a
correctly signed image of generation 1 is staged. -/
def staleDisk : Disk := stageSample (sampleDisk (writeSuperblock (some .a) 1 2 sampleKey) .b 2)

end Redoubt.Storage
