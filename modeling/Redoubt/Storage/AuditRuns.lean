import Redoubt.Storage.AuditLog

/-!
# Runs of the audit log

A mount scans the log before it appends to it, perhaps several times, and a request
appends one record at most.  `Calls` takes a mount or a request apart into its scans and
its audit calls; as long as the scans read what is stored, every record goes where the
replay of the disk ends, so memory and disk agree on the log in every run.
-/

namespace Redoubt.Storage

open Redoubt.Foundation Redoubt.Crypto

/-! ### Scans -/

/-- Every read of a sector of the log gets what is stored there. -/
def World.ReadsLog (w : World) : Prop :=
  ∀ call lba, AuditSector lba → ∃ seen, w.read call lba = some seen ∧ ∀ sector, seen lba sector = sector

theorem World.ReadsSucceed.readsLog {w : World} (reads : w.ReadsSucceed) : w.ReadsLog := by
  intro call lba _
  obtain ⟨seen, hseen⟩ := Option.isSome_iff_exists.mp (reads.2 call lba)
  exact ⟨seen, hseen, fun sector => reads.1 _ _ seen hseen _ _⟩

theorem scanRecords_replay {w : World} {disk : Disk} {fuel seq : Nat} {d : Dev} (reads : w.ReadsLog)
    (stored : d.disk = disk) (room : seq + fuel ≤ auditRecords) :
    (scanRecords w fuel seq (auditFormat.linkAt (auditCells disk) seq) d).1 =
      auditFormat.replay (auditCells disk) fuel seq (auditFormat.linkAt (auditCells disk) seq) := by
  induction fuel generalizing seq d with
  | zero => rfl
  | succ _ ih =>
      have hread : (brSector w d (auditStartLba + seq)).1 = some (auditCells disk seq) := by
        obtain ⟨seen, hseen, hsame⟩ := reads d.reads (auditStartLba + seq) (auditSector_of_lt (by omega))
        unfold brSector
        rw [hseen, stored]
        exact congrArg some (hsame _)
      have hdisk : (brSector w d (auditStartLba + seq)).2.disk = disk := stored
      rw [scanRecords, ChainFormat.replay]
      generalize brSector w d (auditStartLba + seq) = result at hread hdisk ⊢
      obtain ⟨sec?, after⟩ := result
      cases hread
      dsimp only
      by_cases hvalid : auditFormat.valid seq (auditFormat.linkAt (auditCells disk) seq)
          (auditCells disk seq) = true
      · have hchecks := beq_iff_eq.mp hvalid
        rw [if_pos hvalid, hchecks]
        exact ih hdisk (by omega)
      · rw [if_neg hvalid]
        split
        · rename_i number' hchecks
          rw [checkAuditRecord_valid hchecks] at hchecks
          exact absurd (beq_iff_eq.mpr hchecks) hvalid
        · rfl

/-- A scan that reads the log puts the cursor at its end. -/
theorem scanAudit_cursor {w : World} {d : Dev} {c : Cursor} (reads : w.ReadsLog)
    (ends : LogEnds d.disk c) (st : State) : (scanAudit w st d).1.cursor = c := by
  have hreplay : (scanRecords w auditRecords 0 (Bytes.zeros 32) d).1 = c := by
    have hscan := @scanRecords_replay w d.disk auditRecords 0 d reads rfl (Nat.zero_add _).le
    have hends := ends.ends.replay_eq (Nat.zero_le _) (Nat.zero_add auditRecords)
    rw [ends.link] at hends
    exact hscan.trans hends
  have hroom := ends.ends.room
  unfold auditRecords auditEndLba auditStartLba at hroom
  have hseq : (UInt64.ofNat c.1).toNat = c.1 := by
    rw [UInt64.toNat_ofNat']
    omega
  unfold scanAudit
  change ((UInt64.ofNat (scanRecords w auditRecords 0 (Bytes.zeros 32) d).1.1).toNat,
    (scanRecords w auditRecords 0 (Bytes.zeros 32) d).1.2) = c
  rw [hreplay, hseq]

/-! ### Mounts and requests as calls -/

/-- The scans and audit calls between two moments, with the texts that were appended.
Everything else leaves the log alone, and the cursor too unless a scan follows.  Scans may
be excluded. -/
inductive Calls (w : World) (scans : Prop) : State × Dev → List (List UInt8) → State × Dev → Prop where
  | done {now last : State × Dev} (cursor : last.1.cursor = now.1.cursor)
      (wrote : now.2.WroteIn BesideLog last.2) : Calls w scans now [] last
  | scan {now mid last : State × Dev} {texts : List (List UInt8)} (wrote : now.2.WroteIn BesideLog mid.2)
      (allowed : scans) (rest : Calls w scans (scanAudit w mid.1 mid.2) texts last) :
      Calls w scans now texts last
  | audit {now mid last : State × Dev} {texts : List (List UInt8)} (text : List UInt8)
      (cursor : mid.1.cursor = now.1.cursor) (wrote : now.2.WroteIn BesideLog mid.2)
      (rest : Calls w scans (auditRaw w mid.1 text mid.2) texts last) :
      Calls w scans now (appended w mid.1 mid.2 text ++ texts) last

/-- Calls of which the first is a scan. -/
def Starts (w : World) (scans : Prop) (start : State × Dev) (texts : List (List UInt8))
    (last : State × Dev) : Prop :=
  ∃ mid : State × Dev, start.2.WroteIn BesideLog mid.2 ∧ scans ∧
    Calls w scans (scanAudit w mid.1 mid.2) texts last

section Composition

variable {w : World} {scans : Prop} {start now last : State × Dev} {texts texts' : List (List UInt8)}

theorem Calls.after (cursor : now.1.cursor = start.1.cursor) (wrote : start.2.WroteIn BesideLog now.2)
    (h : Calls w scans now texts last) : Calls w scans start texts last := by
  cases h with
  | done hcursor hwrote => exact .done (hcursor.trans cursor) (wrote.trans hwrote)
  | scan hwrote reads rest => exact .scan (wrote.trans hwrote) reads rest
  | audit text hcursor hwrote rest => exact .audit text (hcursor.trans cursor) (wrote.trans hwrote) rest

theorem Calls.trans (first : Calls w scans start texts now) (second : Calls w scans now texts' last) :
    Calls w scans start (texts ++ texts') last := by
  induction first with
  | done cursor wrote => exact second.after cursor wrote
  | scan wrote reads _ ih => exact .scan wrote reads (ih second)
  | audit text cursor wrote _ ih =>
      rw [List.append_assoc]
      exact .audit text cursor wrote (ih second)

theorem Starts.calls (h : Starts w scans now texts last) : Calls w scans now texts last := by
  obtain ⟨mid, hwrote, hreads, hrest⟩ := h
  exact .scan hwrote hreads hrest

theorem Starts.after (wrote : start.2.WroteIn BesideLog now.2) (h : Starts w scans now texts last) :
    Starts w scans start texts last := by
  obtain ⟨mid, hwrote, hreads, hrest⟩ := h
  exact ⟨mid, wrote.trans hwrote, hreads, hrest⟩

theorem Starts.trans (first : Starts w scans start texts now) (second : Calls w scans now texts' last) :
    Starts w scans start (texts ++ texts') last := by
  obtain ⟨mid, hwrote, hreads, hrest⟩ := first
  exact ⟨mid, hwrote, hreads, hrest.trans second⟩

/-- A scan with one audit call after it. -/
theorem starts_audit (allowed : scans) (text : List UInt8) : ∃ texts,
    Starts w scans start texts
      (auditRaw w (scanAudit w start.1 start.2).1 text (scanAudit w start.1 start.2).2) :=
  ⟨_, start, .refl, allowed, .audit text rfl .refl (.done rfl .refl)⟩

end Composition

section Mount

variable {w : World} {scans : Prop} (allowed : scans) {st : State} {d : Dev}

/-- Nothing was logged, or the first call was a scan. -/
def Begun (w : World) (scans : Prop) (start now : State × Dev) : Prop :=
  start.2.WroteIn BesideLog now.2 ∨ ∃ texts, Starts w scans start texts now

theorem Begun.starts {start now last : State × Dev} (h : Begun w scans start now)
    (later : ∃ texts, Starts w scans now texts last) : ∃ texts, Starts w scans start texts last := by
  obtain ⟨texts', hlater⟩ := later
  rcases h with hwrote | ⟨texts, hstarts⟩
  · exact ⟨texts', hlater.after hwrote⟩
  · exact ⟨_, hstarts.trans hlater.calls⟩

theorem besideLog_header (slot : SlotId) : BesideLog slot.hdrLba := by
  unfold BesideLog AuditSector
  cases slot <;> decide

include allowed in
theorem selectSlot_begun (key : Bytes 32) (active : Option SlotId) :
    Begun w scans (st, d) (selectSlot w st key active d).2 := by
  cases active with
  | none => exact .inl .refl
  | some slot =>
      obtain ⟨out, read, honly, hvalid⟩ := slotValidates_spec w d key slot st.pubkey st.workspace
      unfold selectSlot
      rw [hvalid]
      cases (slotSeen w key st.pubkey slot d).isSome with
      | true => exact .inl honly.wroteIn
      | false =>
          dsimp only
          have hzero : d.WroteIn BesideLog (zeroHeader w slot read) :=
            honly.wroteIn.trans ((bw_one_wroteIn w read slot.hdrLba _).mono fun lba hlba => by
              rw [hlba]
              exact besideLog_header slot)
          obtain ⟨texts, hstarts⟩ :=
            @starts_audit w scans ({ st with workspace := out }, zeroHeader w slot read)
            allowed (ascii "rollback slot " ++ [slot.letter])
          have hrollback := @Starts.after w scans (st, d) _ _ _ hzero hstarts
          dsimp only at hrollback
          generalize auditRaw w (scanAudit w { st with workspace := out } (zeroHeader w slot read)).1
            (ascii "rollback slot " ++ [slot.letter])
            (scanAudit w { st with workspace := out } (zeroHeader w slot read)).2 = logged at hrollback ⊢
          obtain ⟨st', after⟩ := logged
          obtain ⟨out', last, honly', hother⟩ :=
            slotValidates_spec w after key slot.other st'.pubkey st'.workspace
          dsimp only
          rw [hother]
          have hquiet : Calls w scans (st', after) [] ({ st' with workspace := out' }, last) :=
            .done rfl honly'.wroteIn
          cases (slotSeen w key st'.pubkey slot.other after).isSome with
          | true => exact .inr ⟨_, hrollback.trans hquiet⟩
          | false => exact .inr ⟨_, hrollback.trans hquiet⟩

include allowed in
theorem mountConfig_begun : Begun w scans (st, d) (mountConfig w st d) := by
  have hread := brSector_onlyRead w d configLba
  unfold mountConfig
  generalize brSector w d configLba = result at hread ⊢
  obtain ⟨_ | sec, after⟩ := result
  · exact .inl hread.wroteIn
  · dsimp only
    split_ifs
    · exact .inl hread.wroteIn
    · cases parseConfig sec.val with
      | none => exact .inl hread.wroteIn
      | some => exact .inl hread.wroteIn
    · obtain ⟨texts, hstarts⟩ := @starts_audit w scans (st, after) allowed (ascii "cfg tamper ignored")
      exact .inr ⟨texts, hstarts.after hread.wroteIn⟩

theorem loadApps_quiet (w : World) (st : State) (d : Dev) :
    (loadApps w st d).1.cursor = st.cursor ∧ d.OnlyRead (loadApps w st d).2 := by
  obtain ⟨st', after, hload, -, honly, -⟩ := loadApps_spec w st d
  refine ⟨rfl, ?_⟩
  rw [hload]
  exact honly

include allowed in
theorem mountSlot_starts (key : Bytes 32) (slot : SlotId) :
    ∃ texts, Starts w scans (st, d) texts (mountSlot w st key slot d) := by
  obtain ⟨out, read, honly, hload, -⟩ := validateAndLoad_eq w key slot st.pubkey st.workspace d
  unfold mountSlot
  rw [hload]
  cases slotSeen w key st.pubkey slot d with
  | none =>
      obtain ⟨texts, hstarts⟩ := @starts_audit w scans ({ st with workspace := out, volKey := key }, read)
        allowed (ascii "boot payload-fail")
      exact ⟨texts, hstarts.after honly.wroteIn⟩
  | some stored =>
      dsimp only [Option.map_some]
      generalize ({ st with
        workspace := out
        volKey := key
        active := some slot
        generation := stored.2
        payload := out.read 0 stored.1.length
        roster := parseRoster (out.read 0 stored.1.length)
        deviceId := (findKv (out.read 0 stored.1.length) (ascii "device-id")).getD (ascii "?")
        recovery := false } : State) = loaded
      have hconfig := @mountConfig_begun w scans allowed loaded read
      generalize mountConfig w loaded read = configured at hconfig ⊢
      have hlast : ∃ texts, Starts w scans configured texts (auditRaw w _ _ _) :=
        ⟨_, configured, .refl, allowed,
          .audit (ascii "boot slot" ++ [slot.letter] ++ ascii " gen " ++ pushNum stored.2)
            (loadApps_quiet w _ _).1 (loadApps_quiet w _ _).2.wroteIn (.done rfl .refl)⟩
      obtain ⟨texts, hstarts⟩ := hconfig.starts hlast
      exact ⟨texts, hstarts.after honly.wroteIn⟩

include allowed in
/-- A mount with a trusted superblock scans the log before it appends to it. -/
theorem mount_starts {sb : Sector} (hread : (brSector w d superblockLba).1 = some sb)
    (trusted : superblockTrusted sb = true) : ∃ texts, Starts w scans (st, d) texts (mount w st d) := by
  rw [mount_trusted w st d hread trusted]
  have honly := brSector_onlyRead w d superblockLba
  generalize (brSector w d superblockLba).2 = after at honly ⊢
  have hselect := @selectSlot_begun w scans allowed st after (superblockKey sb) (superblockSlot sb)
  generalize selectSlot w st (superblockKey sb) (superblockSlot sb) after = selected at hselect ⊢
  obtain ⟨slot?, st', last⟩ := selected
  have hfinish : ∃ texts, Starts w scans (st', last) texts
      (finishMount w (superblockKey sb) (slot?, st', last)) := by
    cases slot? with
    | none =>
        obtain ⟨texts, hstarts⟩ := @starts_audit w scans
          ({ st' with volKey := superblockKey sb, active := none }, last) allowed (ascii "boot recovery")
        exact ⟨texts, hstarts⟩
    | some slot => exact mountSlot_starts allowed (superblockKey sb) slot
  obtain ⟨texts, hstarts⟩ := hselect.starts hfinish
  exact ⟨texts, hstarts.after honly.wroteIn⟩

end Mount

section Requests

variable {w : World} {st : State} {d : Dev}

theorem writes_besideLog {req : Request} {lba : Nat} (h : Writes w st d req lba) : BesideLog lba := by
  have happ : ∀ {slot : UInt8}, AppOwns slot lba → BesideLog lba := by
    intro slot howns haudit
    unfold AppOwns appStartLba at howns
    unfold AuditSector auditEndLba at haudit
    omega
  obtain ⟨-, -, rfl⟩ | ⟨-, hwindow | rfl⟩ | ⟨-, a, -, howns⟩ | ⟨name, -, entry, -, -, hlba⟩ := h
  · unfold BesideLog AuditSector
    decide
  · exact SlotId.not_owns_audit (SlotId.owns_window hwindow)
  · exact superblock_not_audit
  · exact happ howns
  · exact happ (appOwns_header hlba)

/-- A request writes outside the log, and appends one record at most. -/
theorem handle_calls (scans : Prop) (req : Request) :
    ∃ texts, Calls w scans (st, d) texts (handle w st req d).2 := by
  obtain ⟨reply, mid, written, hends, -, hcursor, -, hwrote⟩ := @handle_frame w st d req
  have hbeside : d.WroteIn BesideLog written := hwrote.mono fun _ => writes_besideLog
  rcases hends with hresult | ⟨text, hresult⟩
  · rw [hresult]
    exact ⟨[], .done hcursor hbeside⟩
  · rw [hresult]
    exact ⟨_, @Calls.audit w scans (st, d) (mid, written) _ [] text hcursor hbeside (.done rfl .refl)⟩

end Requests

/-! ### Appending where the replay ends -/

section Appending

variable {w : World} {scans : Prop} {now last : State × Dev} {texts : List (List UInt8)}

theorem Calls.logged (h : Calls w scans now texts last) (reads : scans → w.ReadsLog)
    (keeps : w.FailuresKeep) (ends : LogEnds now.2.disk now.1.cursor) :
    now.2.Logged now.1.cursor texts last.1.cursor last.2 := by
  induction h with
  | done cursor wrote =>
      rw [cursor]
      exact .of_wroteIn wrote
  | @scan now mid last texts wrote allowed rest ih =>
      have hbeside : now.2.Logged now.1.cursor [] now.1.cursor mid.2 := .of_wroteIn wrote
      have hmid := hbeside.logEnds ends
      have honly := scanAudit_onlyRead w mid.1 mid.2
      have hcursor := scanAudit_cursor (reads allowed) hmid mid.1
      have hscanned : LogEnds (scanAudit w mid.1 mid.2).2.disk (scanAudit w mid.1 mid.2).1.cursor := by
        rw [hcursor, honly.1]
        exact hmid
      have hrest := ih hscanned
      rw [hcursor] at hrest
      exact (hbeside.trans (.of_wroteIn honly.wroteIn)).trans hrest
  | @audit now mid last texts text cursor wrote rest ih =>
      have hbeside : now.2.Logged now.1.cursor [] mid.1.cursor mid.2 := by
        rw [cursor]
        exact .of_wroteIn wrote
      have haudit := auditRaw_logged w mid.1 mid.2 keeps text
      exact hbeside.trans (haudit.trans (ih (haudit.logEnds (hbeside.logEnds ends))))

theorem Starts.logged {c : Cursor} (h : Starts w scans now texts last) (reads : w.ReadsLog)
    (keeps : w.FailuresKeep)
    (ends : LogEnds now.2.disk c) : now.2.Logged c texts last.1.cursor last.2 := by
  obtain ⟨mid, hwrote, hallowed, hrest⟩ := h
  have hcalls : Calls w scans ({ now.1 with auditSeq := UInt64.ofNat c.1, auditPrev := c.2 }, now.2)
      texts last := .scan hwrote hallowed hrest
  have hroom := ends.ends.room
  unfold auditRecords auditEndLba auditStartLba at hroom
  have hcursor : State.cursor { now.1 with auditSeq := UInt64.ofNat c.1, auditPrev := c.2 } = c := by
    change ((UInt64.ofNat c.1).toNat, c.2) = c
    rw [UInt64.toNat_ofNat', Nat.mod_eq_of_lt (by omega)]
  have hlogged := hcalls.logged (fun _ => reads) keeps
  rw [hcursor] at hlogged
  exact hlogged ends

end Appending

/-- The superblock that the mount reads is trusted, so that it goes on to scan the log, and
every read of the log gets what is stored. -/
def FindsEnd (w : World) (disk : Disk) : Prop :=
  (∃ seen, w.read 0 superblockLba = some seen ∧
    superblockTrusted (seen superblockLba (disk superblockLba)) = true) ∧ w.ReadsLog

theorem findsEnd_of_reads {w : World} (reads : w.ReadsSucceed) {disk : Disk}
    (trusted : superblockTrusted (disk superblockLba) = true) : FindsEnd w disk := by
  obtain ⟨seen, hseen⟩ := Option.isSome_iff_exists.mp (reads.2 0 superblockLba)
  refine ⟨⟨seen, hseen, ?_⟩, reads.readsLog⟩
  rw [reads.1 _ _ seen hseen]
  exact trusted

/-- Such a mount starts with a scan. -/
theorem FindsEnd.starts {w : World} {disk : Disk} (h : FindsEnd w disk) (pubkey : Bytes 32) :
    ∃ texts, Starts w True (State.factory true pubkey, Dev.fresh disk) texts
      (boot w true pubkey (Dev.fresh disk)) := by
  obtain ⟨⟨seen, hseen, htrusted⟩, -⟩ := h
  refine mount_starts trivial ?_ htrusted
  unfold brSector
  change (w.read 0 superblockLba).map _ = _
  rw [hseen]
  rfl

/-! ### Memory and disk agree -/

/-- One step of a run on a volume whose log only the service writes, with the texts logged
so far.  In a mount all reads succeed and the superblock is intact; writes may fail
everywhere and leave their last sector unchanged, and power may be lost between any two
sector writes. -/
inductive LogStep (pubkey : Bytes 32) : Power × List (List UInt8) → Power × List (List UInt8) → Prop where
  | boot {disk : Disk} {texts new : List (List UInt8)} (w : World) (reads : w.ReadsSucceed)
      (keeps : w.FailuresKeep) (trusted : superblockTrusted (disk superblockLba) = true)
      (logs : Starts w True (State.factory true pubkey, Dev.fresh disk) new
        (boot w true pubkey (Dev.fresh disk))) :
      LogStep pubkey (.off disk, texts)
        (.on (boot w true pubkey (Dev.fresh disk)).1 (boot w true pubkey (Dev.fresh disk)).2,
          texts ++ new)
  | bootCut {disk : Disk} {texts new : List (List UInt8)} (w : World) (reads : w.ReadsSucceed)
      (keeps : w.FailuresKeep) (trusted : superblockTrusted (disk superblockLba) = true)
      (logs : Starts w True (State.factory true pubkey, Dev.fresh disk) new
        (boot w true pubkey (Dev.fresh disk))) (count : Nat) :
      LogStep pubkey (.off disk, texts)
        (.off (applyWrites disk
          ((madeWrites (Dev.fresh disk) (boot w true pubkey (Dev.fresh disk)).2).take count)),
          texts ++ new.take (recordsIn
            ((madeWrites (Dev.fresh disk) (boot w true pubkey (Dev.fresh disk)).2).take count)))
  /-- One audit call, of whatever text. -/
  | audit {st : State} {d : Dev} {texts : List (List UInt8)} (w : World) (keeps : w.FailuresKeep)
      (text : List UInt8) :
      LogStep pubkey (.on st d, texts)
        (.on (auditRaw w st text d).1 (auditRaw w st text d).2, texts ++ appended w st d text)
  | request {st : State} {d : Dev} {texts new : List (List UInt8)} (w : World)
      (keeps : w.FailuresKeep) (req : Request)
      (logs : Calls w False (st, d) new (handle w st req d).2) :
      LogStep pubkey (.on st d, texts)
        (.on (handle w st req d).2.1 (handle w st req d).2.2, texts ++ new)
  | requestCut {st : State} {d : Dev} {texts new : List (List UInt8)} (w : World)
      (keeps : w.FailuresKeep) (req : Request)
      (logs : Calls w False (st, d) new (handle w st req d).2) (count : Nat) :
      LogStep pubkey (.on st d, texts)
        (.off (applyWrites d.disk ((madeWrites d (handle w st req d).2.2).take count)),
          texts ++ new.take (recordsIn ((madeWrites d (handle w st req d).2.2).take count)))
  | off {st : State} {d : Dev} {texts : List (List UInt8)} :
      LogStep pubkey (.on st d, texts) (.off d.disk, texts)
  /-- Something else writes the disk, outside the log. -/
  | beside {st : State} {d : Dev} {texts : List (List UInt8)} (disk : Disk)
      (outside : ∀ lba, AuditSector lba → disk lba = d.disk lba) :
      LogStep pubkey (.on st d, texts) (.on st { d with disk }, texts)
  | besideOff {old : Disk} {texts : List (List UInt8)} (disk : Disk)
      (outside : ∀ lba, AuditSector lba → disk lba = old lba) :
      LogStep pubkey (.off old, texts) (.off disk, texts)

/-- The log on this disk ends at this cursor and holds these texts. -/
structure Holds (disk : Disk) (c : Cursor) (texts : List (List UInt8)) : Prop where
  ends : LogEnds disk c
  count : c.1 = texts.length
  held : ∀ index (h : index < texts.length),
    recordText (auditCells disk index) = texts[index].take audDataMax

namespace Holds

variable {disk : Disk} {c c' : Cursor} {texts new : List (List UInt8)}

theorem beside {other : Disk} (h : Holds disk c texts)
    (same : ∀ lba, AuditSector lba → other lba = disk lba) : Holds other c texts where
  ends := h.ends.beside same
  count := h.count
  held := by
    intro index hindex
    have hroom := h.ends.ends.room
    rw [← h.held index hindex]
    exact congrArg recordText (same _ (auditSector_of_lt (by rw [h.count] at hroom; omega)))

theorem appends {entries : List (Nat × Sector)} (h : Holds disk c texts)
    (step : Appends c entries new c') : Holds (applyWrites disk entries) c' (texts ++ new) where
  ends := step.logEnds h.ends
  count := by rw [step.count_eq, h.count, List.length_append]
  held := by
    intro index hindex
    by_cases hold : index < texts.length
    · rw [step.kept (by rw [h.count]; exact hold) disk h.ends.ends.room, h.held index hold,
        List.getElem_append_left hold]
    · rw [List.length_append] at hindex
      have hnew : index - texts.length < new.length := by omega
      have htext := step.texts_eq disk hnew
      rw [h.count, Nat.add_sub_cancel' (Nat.le_of_not_lt hold)] at htext
      rw [htext, List.getElem_append_right (Nat.le_of_not_lt hold)]

end Holds

/-- The disk holds the logged texts, and a running service knows where the log ends. -/
def Recorded : Power × List (List UInt8) → Prop
  | (.off disk, texts) => ∃ c, Holds disk c texts
  | (.on st d, texts) => Holds d.disk st.cursor texts

/-- Records that are there stay as they are. -/
def RecordsKept (before after : Power × List (List UInt8)) : Prop :=
  before.2 <+: after.2 ∧ ∀ index < before.2.length,
    auditCells after.1.disk index = auditCells before.1.disk index

theorem recordsKept_appends {disk : Disk} {c c' : Cursor} {texts new : List (List UInt8)}
    {entries : List (Nat × Sector)} (h : Holds disk c texts) (step : Appends c entries new c') :
    texts <+: texts ++ new ∧ ∀ index < texts.length,
      auditCells (applyWrites disk entries) index = auditCells disk index :=
  ⟨List.prefix_append _ _,
    fun _ hindex => step.kept (by rw [h.count]; exact hindex) disk h.ends.ends.room⟩

theorem recordsKept_beside {disk other : Disk} {c : Cursor} {texts : List (List UInt8)}
    (h : Holds disk c texts) (same : ∀ lba, AuditSector lba → other lba = disk lba) :
    texts <+: texts ∧ ∀ index < texts.length, auditCells other index = auditCells disk index := by
  refine ⟨List.prefix_rfl, fun index hindex => same _ (auditSector_of_lt ?_)⟩
  have hroom := h.ends.ends.room
  rw [h.count] at hroom
  omega

theorem LogStep.keeps {pubkey : Bytes 32} {before after : Power × List (List UInt8)}
    (step : LogStep pubkey before after) (h : Recorded before) :
    Recorded after ∧ RecordsKept before after := by
  cases step with
  | @boot disk texts new w reads keeps trusted logs =>
      obtain ⟨c, hholds⟩ := h
      obtain ⟨hdisk, happends⟩ := (logs.logged reads.readsLog keeps hholds.ends).made
      dsimp only [Recorded, RecordsKept, Power.disk]
      rw [hdisk]
      exact ⟨hholds.appends happends, recordsKept_appends hholds happends⟩
  | @bootCut disk texts new w reads keeps trusted logs count =>
      obtain ⟨c, hholds⟩ := h
      obtain ⟨-, happends⟩ := (logs.logged reads.readsLog keeps hholds.ends).made
      obtain ⟨c', hcut⟩ := happends.take count
      exact ⟨⟨c', hholds.appends hcut⟩, recordsKept_appends hholds hcut⟩
  | @audit st d texts w keeps text =>
      obtain ⟨hdisk, happends⟩ := (auditRaw_logged w st d keeps text).made
      dsimp only [Recorded, RecordsKept, Power.disk]
      rw [hdisk]
      exact ⟨Holds.appends h happends, recordsKept_appends h happends⟩
  | @request st d texts new w keeps req logs =>
      obtain ⟨hdisk, happends⟩ := (logs.logged False.elim keeps h.ends).made
      dsimp only [Recorded, RecordsKept, Power.disk]
      rw [hdisk]
      exact ⟨Holds.appends h happends, recordsKept_appends h happends⟩
  | @requestCut st d texts new w keeps req logs count =>
      obtain ⟨-, happends⟩ := (logs.logged False.elim keeps h.ends).made
      obtain ⟨c', hcut⟩ := happends.take count
      exact ⟨⟨c', Holds.appends h hcut⟩, recordsKept_appends h hcut⟩
  | off => exact ⟨⟨_, h⟩, List.prefix_rfl, fun _ _ => rfl⟩
  | beside _ outside => exact ⟨Holds.beside h outside, recordsKept_beside h outside⟩
  | besideOff _ outside =>
      obtain ⟨c, hholds⟩ := h
      exact ⟨⟨c, hholds.beside outside⟩, recordsKept_beside hholds outside⟩

theorem LogStep.run_keeps {pubkey : Bytes 32} {before after : Power × List (List UInt8)}
    (run : Relation.ReflTransGen (LogStep pubkey) before after) (h : Recorded before) :
    Recorded after ∧ RecordsKept before after := by
  induction run with
  | refl => exact ⟨h, List.prefix_rfl, fun _ _ => rfl⟩
  | tail _ step ih =>
      obtain ⟨hmid, hextends, hsame⟩ := ih
      obtain ⟨hlast, hextends', hsame'⟩ := step.keeps hmid
      refine ⟨hlast, hextends.trans hextends', fun index hindex => ?_⟩
      rw [hsame' index (Nat.lt_of_lt_of_le hindex hextends.length_le), hsame index hindex]

theorem holds_blank {disk : Disk} (blank : ∀ lba, AuditSector lba → disk lba = Bytes.zeros 512) :
    Holds disk (0, Bytes.zeros 32) [] where
  ends :=
    { ends :=
        { room := Nat.zero_le _
          intact := fun index hindex => absurd hindex (Nat.not_lt_zero index)
          blank := fun index _ hindex prev =>
            auditFormat_blank (blank _ (auditSector_of_lt hindex)) index prev }
      link := rfl }
  count := rfl
  held := fun index hindex => absurd hindex (Nat.not_lt_zero index)

/-- On a volume formatted with an empty log, the running service knows at every moment
what a scan of the disk would find.  The log holds the texts in order, no record
changes, and the next one is written behind the last one, inside the region. -/
theorem audit_replay_agrees (pubkey : Bytes 32) (disk : Disk)
    (blank : ∀ lba, AuditSector lba → disk lba = Bytes.zeros 512)
    (st : State) (d : Dev) (texts : List (List UInt8))
    (run : Relation.ReflTransGen (LogStep pubkey) (.off disk, []) (.on st d, texts)) :
    (∀ w : World, w.ReadsSucceed → ∀ st' : State,
      (scanAudit w st' d).1.auditSeq = st.auditSeq ∧ (scanAudit w st' d).1.auditPrev = st.auditPrev) ∧
    auditFormat.Intact (auditCells d.disk) st.auditSeq.toNat ∧
    st.auditSeq.toNat = texts.length ∧
    (∀ index (h : index < texts.length),
      recordText (auditCells d.disk index) = texts[index].take audDataMax) ∧
    (∀ (power : Power) (texts' : List (List UInt8)),
      Relation.ReflTransGen (LogStep pubkey) (.on st d, texts) (power, texts') →
      texts <+: texts' ∧ ∀ index < texts.length, auditCells power.disk index = auditCells d.disk index) ∧
    st.auditSeq.toNat ≤ auditRecords ∧
    ∀ (w : World) (text : List UInt8), d.WroteIn
      (fun lba => texts.length < auditRecords ∧ lba = auditStartLba + texts.length)
      (auditRaw w st text d).2 := by
  obtain ⟨hholds, -⟩ := LogStep.run_keeps run ⟨_, holds_blank blank⟩
  have hcount : st.auditSeq.toNat = texts.length := hholds.count
  refine ⟨fun w reads st' => ?_, hholds.ends.ends.intact, hcount, hholds.held,
    fun power texts' more => ?_, hholds.ends.ends.room, fun w text => ?_⟩
  · have hcursor := scanAudit_cursor reads.readsLog hholds.ends st'
    exact ⟨UInt64.toNat_inj.mp (congrArg Prod.fst hcursor), congrArg Prod.snd hcursor⟩
  · exact (LogStep.run_keeps more hholds).2
  · refine (auditRaw_next w st d text).mono fun lba hlba => ?_
    unfold NextRecord at hlba
    rwa [hcount] at hlba

/-- A volume that names no slot, with an empty log. -/
def unassignedVolume : Disk :=
  Function.update (fun _ => Bytes.zeros 512) superblockLba (writeSuperblock none 0 0 sampleKey)

theorem unassignedVolume_trusted : superblockTrusted (unassignedVolume superblockLba) = true := by
  rw [unassignedVolume, Function.update_self, superblockTrusted_write]

theorem unassignedVolume_blank {lba : Nat} (h : AuditSector lba) :
    unassignedVolume lba = Bytes.zeros 512 := by
  refine Function.update_of_ne ?_ _ _
  rintro rfl
  exact superblock_not_audit h

/-- A mount, one line logged, and a scan. -/
theorem audit_replay_agrees_unassigned :
    let started := boot World.faultless true samplePublic (Dev.fresh unassignedVolume)
    let logged := auditRaw World.faultless started.1 (ascii "hello") started.2
    (scanAudit World.faultless (State.factory true samplePublic) logged.2).1.auditSeq =
      logged.1.auditSeq := by
  obtain ⟨texts, hstarts⟩ :=
    (findsEnd_of_reads World.faultless_reads unassignedVolume_trusted).starts samplePublic
  have hkeeps := World.faultless_writes.failuresKeep
  exact ((audit_replay_agrees samplePublic unassignedVolume (fun _ => unassignedVolume_blank) _ _ _
    ((Relation.ReflTransGen.single
      (.boot World.faultless World.faultless_reads hkeeps unassignedVolume_trusted hstarts)).tail
      (.audit World.faultless hkeeps (ascii "hello")))).1 World.faultless World.faultless_reads _).1

/-! ### No intact record is overwritten -/

/-- One step of any run, with the sector writes that it makes.  The surroundings of a mount
or a request have to be `good`. -/
inductive ServiceStep (pubkey : Bytes 32) (good : World → Power → Prop) :
    Power → List (Nat × Sector) → Power → Prop where
  | boot {disk : Disk} (w : World) (allowed : good w (.off disk)) :
      ServiceStep pubkey good (.off disk)
        (madeWrites (Dev.fresh disk) (boot w true pubkey (Dev.fresh disk)).2)
        (.on (boot w true pubkey (Dev.fresh disk)).1 (boot w true pubkey (Dev.fresh disk)).2)
  | bootCut {disk : Disk} (w : World) (allowed : good w (.off disk)) (count : Nat) :
      ServiceStep pubkey good (.off disk)
        ((madeWrites (Dev.fresh disk) (boot w true pubkey (Dev.fresh disk)).2).take count)
        (.off (applyWrites disk
          ((madeWrites (Dev.fresh disk) (boot w true pubkey (Dev.fresh disk)).2).take count)))
  | request {st : State} {d : Dev} (w : World) (allowed : good w (.on st d)) (req : Request) :
      ServiceStep pubkey good (.on st d) (madeWrites d (handle w st req d).2.2)
        (.on (handle w st req d).2.1 (handle w st req d).2.2)
  | requestCut {st : State} {d : Dev} (w : World) (allowed : good w (.on st d)) (req : Request)
      (count : Nat) :
      ServiceStep pubkey good (.on st d) ((madeWrites d (handle w st req d).2.2).take count)
        (.off (applyWrites d.disk ((madeWrites d (handle w st req d).2.2).take count)))
  | off {st : State} {d : Dev} : ServiceStep pubkey good (.on st d) [] (.off d.disk)
  | beside {st : State} {d : Dev} (disk : Disk)
      (outside : ∀ lba, AuditSector lba → disk lba = d.disk lba) :
      ServiceStep pubkey good (.on st d) [] (.on st { d with disk })
  | besideOff {old : Disk} (disk : Disk) (outside : ∀ lba, AuditSector lba → disk lba = old lba) :
      ServiceStep pubkey good (.off old) [] (.off disk)

/-- States of the runs in which all mounts and requests are good. -/
def ServiceRun (pubkey : Bytes 32) (good : World → Power → Prop) : Power → Power → Prop :=
  Relation.ReflTransGen fun before after => ∃ entries, ServiceStep pubkey good before entries after

/-- A mount finds the end of the log, and no write is reported as failed after it reached
the disk. -/
def LogSafe (w : World) : Power → Prop
  | .off disk => FindsEnd w disk ∧ w.FailuresKeep
  | .on _ _ => w.FailuresKeep

/-- The log ends somewhere, and a running service knows where. -/
def EndKnown : Power → Prop
  | .off disk => ∃ c, LogEnds disk c
  | .on st d => LogEnds d.disk st.cursor

/-- What a step writes to the log is appended to it. -/
theorem ServiceStep.appends {pubkey : Bytes 32} {before after : Power} {entries : List (Nat × Sector)}
    (step : ServiceStep pubkey LogSafe before entries after) (h : EndKnown before) :
    EndKnown after ∧ AppendOnly before.disk entries := by
  have hnothing : ∀ disk, AppendOnly disk [] := by
    intro disk front lba sector tail heq
    exact absurd heq.symm (List.append_ne_nil_of_right_ne_nil _ (List.cons_ne_nil _ _))
  cases step with
  | boot w allowed =>
      obtain ⟨c, hends⟩ := h
      obtain ⟨texts, hstarts⟩ := allowed.1.starts pubkey
      obtain ⟨hdisk, happends⟩ := (hstarts.logged allowed.1.2 allowed.2 hends).made
      refine ⟨?_, happends.appendOnly hends⟩
      rw [EndKnown, hdisk]
      exact happends.logEnds hends
  | bootCut w allowed count =>
      obtain ⟨c, hends⟩ := h
      obtain ⟨texts, hstarts⟩ := allowed.1.starts pubkey
      obtain ⟨c', hcut⟩ := (hstarts.logged allowed.1.2 allowed.2 hends).made.2.take count
      exact ⟨⟨c', hcut.logEnds hends⟩, hcut.appendOnly hends⟩
  | @request st d w keeps req =>
      obtain ⟨texts, hcalls⟩ := @handle_calls w st d False req
      obtain ⟨hdisk, happends⟩ := (hcalls.logged False.elim keeps h).made
      refine ⟨?_, happends.appendOnly h⟩
      rw [EndKnown, hdisk]
      exact happends.logEnds h
  | @requestCut st d w keeps req count =>
      obtain ⟨texts, hcalls⟩ := @handle_calls w st d False req
      obtain ⟨c', hcut⟩ := (hcalls.logged False.elim keeps h).made.2.take count
      exact ⟨⟨c', hcut.logEnds h⟩, hcut.appendOnly h⟩
  | off => exact ⟨⟨_, h⟩, hnothing _⟩
  | beside _ outside => exact ⟨LogEnds.beside h outside, hnothing _⟩
  | besideOff _ outside =>
      obtain ⟨c, hends⟩ := h
      exact ⟨⟨c, hends.beside outside⟩, hnothing _⟩

theorem ServiceRun.endKnown {pubkey : Bytes 32} {before after : Power}
    (run : ServiceRun pubkey LogSafe before after) (h : EndKnown before) : EndKnown after := by
  induction run with
  | refl => exact h
  | tail _ step ih =>
      obtain ⟨entries, step⟩ := step
      exact (step.appends ih).1

/-- In every run whose mounts all find the end of the log, and in which no write is reported
as failed after it reached the disk, no step writes over an intact record.  Behind the end
of the first log nothing may look like a record. -/
theorem audit_log_append_only (pubkey : Bytes 32) (disk : Disk) (c : Cursor) (ends : LogEnds disk c)
    (power : Power) (run : ServiceRun pubkey LogSafe (.off disk) power)
    (entries : List (Nat × Sector)) (later : Power)
    (step : ServiceStep pubkey LogSafe power entries later) : AppendOnly power.disk entries := by
  exact (step.appends (run.endKnown ⟨c, ends⟩)).2

theorem unassignedVolume_run : ServiceRun samplePublic LogSafe (.off unassignedVolume)
    (.on (boot World.faultless true samplePublic (Dev.fresh unassignedVolume)).1
      (boot World.faultless true samplePublic (Dev.fresh unassignedVolume)).2) :=
  .single ⟨_, .boot World.faultless ⟨findsEnd_of_reads World.faultless_reads unassignedVolume_trusted,
    World.faultless_writes.failuresKeep⟩⟩

/-- A mount, and a line that is logged after it. -/
theorem audit_log_append_only_unassigned : ∃ st d,
    boot World.faultless true samplePublic (Dev.fresh unassignedVolume) = (st, d) ∧
      AppendOnly d.disk (madeWrites d
        (handle World.faultless st (.query (ascii "log hello")) d).2.2) := by
  have hrun := unassignedVolume_run
  generalize boot World.faultless true samplePublic (Dev.fresh unassignedVolume) = started at hrun ⊢
  obtain ⟨st, d⟩ := started
  exact ⟨st, d, rfl, audit_log_append_only samplePublic unassignedVolume (0, Bytes.zeros 32)
    (holds_blank fun _ => unassignedVolume_blank).ends _ hrun _ _
    (.request World.faultless World.faultless_writes.failuresKeep (.query (ascii "log hello")))⟩

/-! ### Records that are overwritten -/

/-- A record that is appended where an intact one stands. -/
theorem Appends.overwrites {c c' : Cursor} {disk : Disk} {entries : List (Nat × Sector)}
    {text : List UInt8}
    {texts : List (List UInt8)} (h : Appends c entries (text :: texts) c') (room : c.1 < auditRecords)
    (intact : auditFormat.Intact (auditCells disk) (c.1 + 1)) : ¬ AppendOnly disk entries := by
  intro honly
  obtain ⟨front, sector, tail, hentries, hbeside⟩ := h.first
  refine honly front _ sector tail hentries c.1 room (intact.congr fun index hindex => ?_) rfl
  refine applyWrites_of_untouched _ _ _ fun entry hentry heq => hbeside entry hentry ?_
  rw [heq]
  exact auditSector_of_lt (by omega)

/-- After a record that reached the disk although its write was reported as failed, the next
one goes over it. -/
theorem flushed_record_overwritten {w later : World} {st : State} {d : Dev}
    (ends : LogEnds d.disk st.cursor)
    (room : st.block = true ∧ st.auditSeq.toNat < auditRecords) (flushed : w.write d.writes = some .flush)
    (text next : List UInt8) (landed : ¬ later.Lost (auditRaw w st text d).2.writes) :
    let after := auditRaw w st text d
    ¬ AppendOnly after.2.disk (madeWrites after.2 (auditRaw later after.1 next after.2).2) := by
  have hlost : ¬ w.Lost d.writes := fun ⟨count, hshort⟩ => by simp [flushed] at hshort
  have hstate : (auditRaw w st text d).1 = st := by
    obtain ⟨-, hresult⟩ | ⟨-, record, -, hresult⟩ := auditRaw_cases w st d text
    · rw [hresult]
    · rw [hresult, flushed]
      rfl
  dsimp only
  rw [hstate]
  exact (auditRaw_lands later st _ room landed).made.2.overwrites room.2
    ((auditRaw_lands w st d room hlost).logEnds ends).ends.intact

/-- A volume with one record and no superblock. -/
def orphanedLog : Disk :=
  Function.update (fun _ => Bytes.zeros 512) auditStartLba
    (auditRecord (0, Bytes.zeros 32) 7 (ascii "boot recovery")).1

theorem orphanedLog_intact : auditFormat.Intact (auditCells orphanedLog) 1 :=
  ((holds_blank fun _ _ => rfl).ends.record (by decide) 7 (ascii "boot recovery")).ends.intact

theorem boot_unmarked {disk : Disk} (unmarked : disk superblockLba = Bytes.zeros 512)
    (pubkey : Bytes 32) :
    boot World.faultless true pubkey (Dev.fresh disk) =
      (State.factory true pubkey, { Dev.fresh disk with reads := 1 }) := by
  have hmagic : ((Bytes.zeros 512).slice 0 8 == sbMagic) = false := by decide +kernel
  refine (mount_untrusted World.faultless (State.factory true pubkey) (Dev.fresh disk)
    fun sb hread => ?_ :)
  have hread' : some (disk superblockLba) = some sb := hread
  cases hread'
  rw [superblockTrusted, unmarked, hmagic]
  rfl

theorem handle_log (w : World) (st : State) (d : Dev) {req text : List UInt8}
    (h : stripPrefix req (ascii "log ") = some text) :
    (handle w st (.query req) d).2 = auditRaw w st (trim text) d := by
  obtain ⟨text', htext, hresult⟩ | ⟨hnone, -⟩ := @handleQuery_cases w st d req
  · rw [h] at htext
    cases htext
    exact congrArg Prod.snd hresult
  · rw [h] at hnone
    cases hnone

/-- The superblock does not validate, so the mount never scans, and the first line that is
logged goes over record 0. -/
theorem record_overwritten :
    let started := boot World.faultless true samplePublic (Dev.fresh orphanedLog)
    ServiceRun samplePublic (fun _ _ => True) (.off orphanedLog) (.on started.1 started.2) ∧
      ¬ AppendOnly started.2.disk (madeWrites started.2
        (handle World.faultless started.1 (.query (ascii "log x")) started.2).2.2) := by
  intro started
  refine ⟨.single ⟨_, .boot World.faultless trivial⟩, fun honly => ?_⟩
  have hstarted : started =
      (State.factory true samplePublic, { Dev.fresh orphanedLog with reads := 1 }) :=
    boot_unmarked (by rw [orphanedLog, Function.update_of_ne (by decide)]) samplePublic
  have hlog : stripPrefix (ascii "log x") (ascii "log ") = some (ascii "x") := by decide
  rw [hstarted] at honly
  dsimp only at honly
  rw [handle_log World.faultless _ _ hlog] at honly
  exact (auditRaw_lands World.faultless (State.factory true samplePublic)
    { Dev.fresh orphanedLog with reads := 1 } ⟨rfl, by decide⟩
    (World.not_lost_of_none rfl)).made.2.overwrites (by decide) orphanedLog_intact honly

end Redoubt.Storage
