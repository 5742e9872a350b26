import Redoubt.Foundation.HashChain
import Redoubt.Storage.Regions

/-!
# The audit log

Every record carries the digest of the one before it, so the log is a chain that a
mount replays from record 0.  Everything the service writes is either outside the log
or the record at the end of the chain: `Appends` says so for lists of sector writes,
and one lemma for each function says that its writes are of this kind.
-/

namespace Redoubt.Storage

open Redoubt.Foundation Redoubt.Crypto

/-! ### Records -/

/-- The log as a chain of sectors. -/
def auditFormat : ChainFormat Sector (Bytes 32) where
  genesis := Bytes.zeros 32
  link sec := sec.slice 0x1E0 32 recordLink_inside
  valid index prev sec :=
    checkAuditRecord sec.val (UInt64.ofNat index) prev == .valid (UInt64.ofNat index)

def auditCells (disk : Disk) (index : Nat) : Sector := disk (auditStartLba + index)

/-- The text of a record. -/
def recordText (sec : Sector) : List UInt8 :=
  (sec.val.drop 56).take (sec.slice 22 2 recordLen_inside).toU16.toNat

theorem checkAuditRecord_valid {bytes : List UInt8} {seq expected : UInt64} {prev : Bytes 32}
    (h : checkAuditRecord bytes expected prev = .valid seq) : seq = expected := by
  unfold checkAuditRecord at h
  split at h
  · cases h
  · dsimp only at h
    split_ifs at h with _ _ hseq
    cases h
    exact not_not.mp hseq

section Record

variable (seq tick : UInt64) (event aux : UInt8) (data : List UInt8)
  (room : data.length ≤ audDataMax) (prev : Bytes 32)

theorem checkAuditRecord_write :
    checkAuditRecord (writeAuditRecord seq tick event aux data room prev).1.val seq prev =
      .valid seq := by
  have hsame : ∀ {size : Nat} (bytes : Bytes size), constantTimeEq bytes.val bytes.val = true :=
    fun _ => constantTimeEq_bytes.mpr rfl
  unfold checkAuditRecord
  rw [firstSector?_val]
  simp (disch := decide) [writeAuditRecord, Bytes.slice_splice_before, audMagic, hsame]

theorem link_writeAuditRecord :
    (writeAuditRecord seq tick event aux data room prev).1.slice 0x1E0 32 =
      (writeAuditRecord seq tick event aux data room prev).2 :=
  Bytes.slice_splice_self _

theorem recordText_write :
    recordText (writeAuditRecord seq tick event aux data room prev).1 = data := by
  have hroom : 56 + data.length ≤ 0x1E0 := by
    unfold audDataMax at room
    omega
  have hlen : ((writeAuditRecord seq tick event aux data room prev).1.slice 22 2).toU16.toNat =
      data.length := by
    simp (disch := decide) [writeAuditRecord, Bytes.slice_splice_before]
    omega
  have hdata : (writeAuditRecord seq tick event aux data room prev).1.slice 56 data.length
      (by omega) = Bytes.ofList data := by
    unfold writeAuditRecord
    dsimp only
    rw [Bytes.slice_splice_before _ _ hroom, Bytes.slice_splice_self]
  rw [recordText, hlen, ← Bytes.slice_val (by omega), hdata]
  rfl

end Record

theorem auditFormat_blank {sec : Sector} (blank : sec = Bytes.zeros 512) (index : Nat)
    (prev : Bytes 32) : auditFormat.valid index prev sec = false := by
  have hmagic : ((Bytes.zeros 512).slice 0 4).toU32 = 0 := by decide +kernel
  have hend : checkAuditRecord sec.val (UInt64.ofNat index) prev = .end := by
    unfold checkAuditRecord
    rw [firstSector?_val, blank]
    exact if_pos hmagic
  change (checkAuditRecord sec.val (UInt64.ofNat index) prev == _) = false
  rw [hend]
  rfl

/-! ### The last digest binds the log -/

/-- What a record that checks looks like. -/
theorem checkAuditRecord_fields {sec : Sector} {seq : UInt64} {prev : Bytes 32}
    (h : checkAuditRecord sec.val seq prev = .valid seq) :
    sec.slice 24 32 = prev ∧ sha256 (sec.slice 0 0x1E0).val = sec.slice 0x1E0 32 := by
  unfold checkAuditRecord at h
  rw [firstSector?_val] at h
  dsimp only at h
  split_ifs at h with _ _ _ hprev hdigest
  rw [Bool.not_eq_true', Bool.not_eq_false] at hprev hdigest
  exact ⟨constantTimeEq_bytes.mp hprev, constantTimeEq_bytes.mp hdigest⟩

/-- Two records with the same digest over different bytes. -/
def Collides (first second : Sector) : Prop :=
  first.slice 0 0x1E0 recordLinked_inside ≠ second.slice 0 0x1E0 recordLinked_inside ∧
    sha256 (first.slice 0 0x1E0 recordLinked_inside).val =
      sha256 (second.slice 0 0x1E0 recordLinked_inside).val

theorem sector_ext {first second : Sector} (front : first.slice 0 0x1E0 = second.slice 0 0x1E0)
    (digest : first.slice 0x1E0 32 = second.slice 0x1E0 32) : first = second := by
  have hparts : ∀ sec : Sector, sec.val = (sec.slice 0 0x1E0).val ++ (sec.slice 0x1E0 32).val := by
    intro sec
    have hlen := sec.property
    have hrest : List.take 32 (List.drop 0x1E0 sec.val) = List.drop 0x1E0 sec.val :=
      List.take_of_length_le (by rw [List.length_drop, hlen])
    rw [Bytes.slice_val, Bytes.slice_val, List.drop_zero, hrest, List.take_append_drop]
  apply Subtype.ext
  rw [hparts first, hparts second, front, digest]

theorem auditFormat_binding (index : Nat) (prev prev' : Bytes 32) (first second : Sector)
    (h : auditFormat.valid index prev first = true) (h' : auditFormat.valid index prev' second = true)
    (digest : auditFormat.link first = auditFormat.link second) :
    Collides first second ∨ first = second ∧ prev = prev' := by
  obtain ⟨hprev, hsha⟩ := checkAuditRecord_fields (beq_iff_eq.mp h)
  obtain ⟨hprev', hsha'⟩ := checkAuditRecord_fields (beq_iff_eq.mp h')
  by_cases hfront : first.slice 0 0x1E0 = second.slice 0 0x1E0
  · have heq := sector_ext hfront digest
    exact .inr ⟨heq, by rw [← hprev, ← hprev', heq]⟩
  · refine .inl ⟨hfront, ?_⟩
    rw [hsha, hsha']
    exact digest

/-- Two logs of the same length that check from record 0 on and end in the same digest are
the same in every byte, or two of their records collide. -/
theorem audit_chain_binds (count : Nat) (first second : Nat → Sector)
    (h : auditFormat.Intact first count) (h' : auditFormat.Intact second count)
    (last : 0 < count → (first (count - 1)).slice 0x1E0 32 = (second (count - 1)).slice 0x1E0 32) :
    (∃ index < count, Collides (first index) (second index)) ∨
      ∀ index < count, (first index).val = (second index).val := by
  have hlink : auditFormat.linkAt first count = auditFormat.linkAt second count := by
    cases count with
    | zero => rfl
    | succ count => exact last (Nat.succ_pos count)
  rcases h.binds auditFormat_binding h' hlink with hcollides | hsame
  · exact .inl hcollides
  · exact .inr fun index hindex => congrArg Subtype.val (hsame index hindex)

/-- Two linked records, with different sectors behind them. -/
theorem audit_chain_binds_records :
    let first := writeAuditRecord 0 7 1 0 (ascii "boot") (by decide) (Bytes.zeros 32)
    let second := writeAuditRecord 1 9 1 0 (ascii "update applied") (by decide) first.2
    let log := fun index => if index = 0 then first.1 else second.1
    let other := Function.update log 2 (Bytes.zeros 512)
    (∃ index < 2, Collides (log index) (other index)) ∨
      ∀ index < 2, (log index).val = (other index).val := by
  intro first second log other
  have hfirst : auditFormat.valid 0 (Bytes.zeros 32) (log 0) = true :=
    beq_iff_eq.mpr (checkAuditRecord_write 0 7 1 0 (ascii "boot") (by decide) (Bytes.zeros 32))
  have hlink : auditFormat.linkAt log 1 = first.2 :=
    link_writeAuditRecord 0 7 1 0 (ascii "boot") (by decide) (Bytes.zeros 32)
  have hsecond : auditFormat.valid 1 (auditFormat.linkAt log 1) (log 1) = true := by
    rw [hlink]
    exact beq_iff_eq.mpr (checkAuditRecord_write 1 9 1 0 (ascii "update applied") (by decide) first.2)
  have hlog : auditFormat.Intact log 2 := by
    intro index hindex
    obtain rfl | rfl : index = 0 ∨ index = 1 := by omega
    · exact hfirst
    · exact hsecond
  have hsame : ∀ index < 2, other index = log index := fun index hindex =>
    Function.update_of_ne (by omega) ..
  exact audit_chain_binds 2 log other hlog (hlog.congr hsame) fun _ => rfl

/-! ### Writes that only append -/

/-- The record of a text, and its digest. -/
def auditRecord (c : Cursor) (tick : UInt64) (text : List UInt8) : Sector × Bytes 32 :=
  writeAuditRecord (UInt64.ofNat c.1) tick 1 0 (text.take audDataMax) (List.length_take_le _ _) c.2

/-- Sector writes that leave the log alone or append the next record, with the texts
appended. -/
inductive Appends : Cursor → List (Nat × Sector) → List (List UInt8) → Cursor → Prop where
  | done {c : Cursor} : Appends c [] [] c
  | beside {c c' : Cursor} {lba : Nat} {sector : Sector} {entries : List (Nat × Sector)}
      {texts : List (List UInt8)} (outside : ¬ AuditSector lba) (rest : Appends c entries texts c') :
      Appends c ((lba, sector) :: entries) texts c'
  | record {c c' : Cursor} {entries : List (Nat × Sector)} {texts : List (List UInt8)}
      (tick : UInt64) (text : List UInt8) (room : c.1 < auditRecords)
      (rest : Appends (c.1 + 1, (auditRecord c tick text).2) entries texts c') :
      Appends c ((auditStartLba + c.1, (auditRecord c tick text).1) :: entries) (text :: texts) c'

/-- The log on this disk ends at this cursor. -/
structure LogEnds (disk : Disk) (c : Cursor) : Prop where
  ends : auditFormat.Ends auditRecords (auditCells disk) c.1
  link : auditFormat.linkAt (auditCells disk) c.1 = c.2

variable {c c' : Cursor} {disk : Disk} {entries : List (Nat × Sector)} {texts : List (List UInt8)}

theorem auditSector_of_lt {index : Nat} (h : index < auditRecords) :
    AuditSector (auditStartLba + index) := by
  unfold auditRecords at h
  unfold AuditSector
  omega

instance (lba : Nat) : Decidable (AuditSector lba) :=
  inferInstanceAs (Decidable (auditStartLba ≤ lba ∧ lba < auditEndLba))

/-- How many of these writes go to the log. -/
def recordsIn (entries : List (Nat × Sector)) : Nat := entries.countP fun entry => AuditSector entry.1

theorem recordsIn_beside {lba : Nat} {sector : Sector} (outside : ¬ AuditSector lba) :
    recordsIn ((lba, sector) :: entries) = recordsIn entries :=
  List.countP_cons_of_neg (by simpa using outside)

theorem recordsIn_record {lba : Nat} {sector : Sector} (inside : AuditSector lba) :
    recordsIn ((lba, sector) :: entries) = recordsIn entries + 1 :=
  List.countP_cons_of_pos (by simpa using inside)

theorem LogEnds.beside {other : Disk} (h : LogEnds disk c)
    (same : ∀ lba, AuditSector lba → other lba = disk lba) : LogEnds other c := by
  have hcells : ∀ index < auditRecords, auditCells other index = auditCells disk index :=
    fun index hindex => same _ (auditSector_of_lt hindex)
  refine ⟨h.ends.congr hcells, ?_⟩
  rw [← h.link]
  exact ChainFormat.linkAt_congr fun index hindex =>
    hcells index (Nat.lt_of_lt_of_le hindex h.ends.room)

theorem auditCells_update (disk : Disk) (index : Nat) (sec : Sector) :
    auditCells (Function.update disk (auditStartLba + index) sec) =
      Function.update (auditCells disk) index sec := by
  funext other
  unfold auditCells
  by_cases h : other = index
  · rw [h, Function.update_self, Function.update_self]
  · rw [Function.update_of_ne h, Function.update_of_ne (by omega)]

/-- Appending one record. -/
theorem LogEnds.record (h : LogEnds disk c) (room : c.1 < auditRecords) (tick : UInt64)
    (text : List UInt8) :
    LogEnds (Function.update disk (auditStartLba + c.1) (auditRecord c tick text).1)
      (c.1 + 1, (auditRecord c tick text).2) := by
  have hvalid : auditFormat.valid c.1 (auditFormat.linkAt (auditCells disk) c.1)
      (auditRecord c tick text).1 = true := by
    rw [h.link]
    exact beq_iff_eq.mpr (checkAuditRecord_write ..)
  constructor
  · rw [auditCells_update]
    exact h.ends.append room hvalid
  · change auditFormat.link (auditCells _ c.1) = _
    rw [auditCells_update, Function.update_self]
    exact link_writeAuditRecord ..

namespace Appends

theorem append {entries' : List (Nat × Sector)} {texts' : List (List UInt8)} {c'' : Cursor}
    (first : Appends c entries texts c') (second : Appends c' entries' texts' c'') :
    Appends c (entries ++ entries') (texts ++ texts') c'' := by
  induction first with
  | done => exact second
  | beside outside _ ih => exact .beside outside (ih second)
  | record tick text room _ ih => exact .record tick text room (ih second)

theorem of_beside (outside : ∀ entry ∈ entries, ¬ AuditSector entry.1) : Appends c entries [] c := by
  induction entries with
  | nil => exact .done
  | cons _ _ ih =>
      rw [List.forall_mem_cons] at outside
      exact .beside outside.1 (ih outside.2)

/-- Power may be lost after any of the writes. -/
theorem take (h : Appends c entries texts c') (count : Nat) : ∃ c'',
    Appends c (entries.take count) (texts.take (recordsIn (entries.take count))) c'' := by
  induction h generalizing count with
  | @done c => exact ⟨c, by rw [List.take_nil, List.take_nil]; exact .done⟩
  | @beside c _ lba sector entries texts outside rest ih =>
      cases count with
      | zero => exact ⟨c, .done⟩
      | succ count =>
          obtain ⟨c'', happends⟩ := ih count
          refine ⟨c'', ?_⟩
          rw [List.take_succ_cons, recordsIn_beside outside]
          exact .beside outside happends
  | @record c _ entries texts tick text room rest ih =>
      cases count with
      | zero => exact ⟨c, .done⟩
      | succ count =>
          obtain ⟨c'', happends⟩ := ih count
          refine ⟨c'', ?_⟩
          rw [List.take_succ_cons, recordsIn_record (auditSector_of_lt room), List.take_succ_cons]
          exact .record tick text room happends

theorem count_eq (h : Appends c entries texts c') : c'.1 = c.1 + texts.length := by
  induction h with
  | done => rfl
  | beside _ _ ih => exact ih
  | record _ _ _ _ ih =>
      rw [ih, List.length_cons]
      omega

/-- The records before the cursor stay. -/
theorem kept (h : Appends c entries texts c') {index : Nat} (before : index < c.1) (disk : Disk)
    (room : c.1 ≤ auditRecords) :
    auditCells (applyWrites disk entries) index = auditCells disk index := by
  induction h generalizing disk with
  | done => rfl
  | @beside c _ lba sector _ _ outside _ ih =>
      change auditCells (applyWrites (Function.update disk lba sector) _) index = _
      rw [ih before _ room]
      refine Function.update_of_ne ?_ _ _
      rintro rfl
      exact outside (auditSector_of_lt (by omega))
  | @record c _ _ _ tick text hroom _ ih =>
      change auditCells (applyWrites (Function.update disk (auditStartLba + c.1) _) _) index = _
      rw [ih (Nat.lt_succ_of_lt before) _ hroom, auditCells_update,
        Function.update_of_ne (by omega)]

theorem logEnds (h : Appends c entries texts c') (ends : LogEnds disk c) :
    LogEnds (applyWrites disk entries) c' := by
  induction h generalizing disk with
  | done => exact ends
  | @beside c _ lba sector _ _ outside _ ih =>
      refine ih (ends.beside fun other haudit => Function.update_of_ne ?_ _ _)
      rintro rfl
      exact outside haudit
  | record tick text room _ ih => exact ih (ends.record room tick text)

/-- The new records hold the texts. -/
theorem texts_eq (h : Appends c entries texts c') (disk : Disk) {index : Nat}
    (inside : index < texts.length) :
    recordText (auditCells (applyWrites disk entries) (c.1 + index)) =
      texts[index].take audDataMax := by
  induction h generalizing disk index with
  | done => exact absurd inside (Nat.not_lt_zero _)
  | beside _ _ ih => exact ih _ inside
  | @record c _ _ _ tick text room rest ih =>
      cases index with
      | zero =>
          change recordText (auditCells (applyWrites (Function.update disk _ _) _) c.1) = _
          rw [rest.kept (Nat.lt_succ_self c.1) _ room, auditCells_update, Function.update_self]
          exact recordText_write _ _ _ _ _ (List.length_take_le _ _) _
      | succ index =>
          have hshift : c.1 + (index + 1) = c.1 + 1 + index := by omega
          rw [hshift]
          exact ih _ (Nat.lt_of_succ_lt_succ inside)

/-- The first record goes to the cursor. -/
theorem first {text : List UInt8} (h : Appends c entries (text :: texts) c') : ∃ front sector tail,
    entries = front ++ (auditStartLba + c.1, sector) :: tail ∧
      ∀ entry ∈ front, ¬ AuditSector entry.1 := by
  generalize hall : text :: texts = all at h
  induction h with
  | done => cases hall
  | @beside c _ lba sector entries _ outside _ ih =>
      obtain ⟨front, sector', tail, rfl, hfront⟩ := ih hall
      exact ⟨(lba, sector) :: front, sector', tail, rfl, List.forall_mem_cons.mpr ⟨outside, hfront⟩⟩
  | record => exact ⟨[], _, _, rfl, fun _ hmem => absurd hmem List.not_mem_nil⟩

end Appends

/-- No write hits a record that is intact at that moment, checked from record 0. -/
def AppendOnly (disk : Disk) (entries : List (Nat × Sector)) : Prop :=
  ∀ front lba sector tail, entries = front ++ (lba, sector) :: tail → ∀ index < auditRecords,
    auditFormat.Intact (auditCells (applyWrites disk front)) (index + 1) → lba ≠ auditStartLba + index

theorem Appends.appendOnly (h : Appends c entries texts c') (ends : LogEnds disk c) :
    AppendOnly disk entries := by
  intro front
  induction front generalizing c disk entries texts with
  | nil =>
      rintro lba sector tail rfl index hindex hintact heq
      cases h with
      | beside outside => exact outside (heq ▸ auditSector_of_lt hindex)
      | record =>
          have hbefore := (ends.ends.intact_iff hindex).mp hintact
          omega
  | cons _ _ ih =>
      rintro lba sector tail rfl
      cases h with
      | beside outside rest =>
          refine ih rest (ends.beside fun other haudit => Function.update_of_ne ?_ _ _) lba sector
            tail rfl
          rintro rfl
          exact outside haudit
      | record tick text room rest => exact ih rest (ends.record room tick text) lba sector tail rfl

/-! ### Calls that only append -/

/-- From the first cursor to the second one these texts were appended, and nothing else
was written to the log. -/
def Dev.Logged (d : Dev) (c : Cursor) (texts : List (List UInt8)) (c' : Cursor) (after : Dev) : Prop :=
  ∃ entries, after.disk = applyWrites d.disk entries ∧ after.log = d.log ++ entries ∧
    Appends c entries texts c'

/-- A sector outside the audit log. -/
def BesideLog (lba : Nat) : Prop := ¬ AuditSector lba

namespace Dev.Logged

variable {d after last : Dev}

theorem of_wroteIn (h : d.WroteIn BesideLog after) : d.Logged c [] c after := by
  obtain ⟨entries, hdisk, hlog, hmem⟩ := h
  exact ⟨entries, hdisk, hlog, .of_beside hmem⟩

theorem trans {texts' : List (List UInt8)} {c'' : Cursor} (first : d.Logged c texts c' after)
    (second : after.Logged c' texts' c'' last) : d.Logged c (texts ++ texts') c'' last := by
  obtain ⟨entries, hdisk, hlog, happends⟩ := first
  obtain ⟨entries', hdisk', hlog', happends'⟩ := second
  refine ⟨entries ++ entries', ?_, ?_, happends.append happends'⟩
  · rw [hdisk', hdisk, applyWrites_append]
  · rw [hlog', hlog, List.append_assoc]

theorem logEnds (h : d.Logged c texts c' after) (ends : LogEnds d.disk c) : LogEnds after.disk c' := by
  obtain ⟨entries, hdisk, -, happends⟩ := h
  rw [hdisk]
  exact happends.logEnds ends

/-- The writes of the call. -/
theorem made (h : d.Logged c texts c' after) :
    after.disk = applyWrites d.disk (madeWrites d after) ∧ Appends c (madeWrites d after) texts c' := by
  obtain ⟨entries, hdisk, hlog, happends⟩ := h
  rw [madeWrites_eq hlog]
  exact ⟨hdisk, happends⟩

end Dev.Logged

variable (w : World) (st : State) (d : Dev)

/-- What an audit call appends: nothing without a volume, on a full log or when the
write fails. -/
def appended (text : List UInt8) : List (List UInt8) :=
  if st.block ∧ st.auditSeq.toNat < auditRecords ∧ w.write d.writes = none then [text] else []

/-- The record of an audit call is appended to the log unless its write is lost, also when
the write is reported as failed. -/
theorem auditRaw_lands {text : List UInt8} (room : st.block = true ∧ st.auditSeq.toNat < auditRecords)
    (landed : ¬ w.Lost d.writes) :
    d.Logged st.cursor [text] (st.cursor.1 + 1, (auditRecord st.cursor (ticks w d).1 text).2)
      (auditRaw w st text d).2 := by
  have hseq : UInt64.ofNat st.auditSeq.toNat = st.auditSeq := UInt64.ofNat_toNat
  obtain ⟨hnone, -⟩ | ⟨-, record, rfl, hresult⟩ := auditRaw_cases w st d text
  · exact absurd room hnone
  · rw [hresult]
    obtain ⟨hlost, -⟩ | ⟨-, hmade⟩ := bw_one_made w (ticks w d).2 (auditStartLba + st.auditSeq.toNat)
      (writeAuditRecord st.auditSeq (ticks w d).1 1 0 (text.take audDataMax) (List.length_take_le _ _)
        st.auditPrev).1
    · exact absurd hlost landed
    · refine ⟨_, hmade.1, hmade.2, ?_⟩
      have happends := Appends.record (ticks w d).1 text room.2 (@Appends.done (st.cursor.1 + 1,
        (auditRecord st.cursor (ticks w d).1 text).2))
      unfold auditRecord State.cursor at happends ⊢
      rwa [hseq] at happends ⊢

/-- Where no failed write reaches the disk, an audit call appends one record, or leaves
cursor and disk alone. -/
theorem auditRaw_logged (keeps : w.FailuresKeep) (text : List UInt8) :
    d.Logged st.cursor (appended w st d text) (auditRaw w st text d).1.cursor
      (auditRaw w st text d).2 := by
  unfold appended
  obtain ⟨hnone, hresult⟩ | ⟨hroom, record, hrecord, hresult⟩ := auditRaw_cases w st d text
  · rw [hresult, if_neg fun h => hnone ⟨h.1, h.2.1⟩]
    exact .of_wroteIn .refl
  · by_cases hwrite : w.write d.writes = none
    · have hlands := @auditRaw_lands w st d text hroom (World.not_lost_of_none hwrite)
      rw [hresult] at hlands ⊢
      rw [if_pos ⟨hroom.1, hroom.2, hwrite⟩, if_pos hwrite]
      have hnext : (st.auditSeq + 1).toNat = st.auditSeq.toNat + 1 := by
        have hsmall := hroom.2
        unfold auditRecords auditEndLba auditStartLba at hsmall
        rw [UInt64.toNat_add, UInt64.toNat_one, Nat.mod_eq_of_lt (by omega)]
      have hcursor : State.cursor { st with auditSeq := st.auditSeq + 1, auditPrev := record.2 } =
          (st.cursor.1 + 1, (auditRecord st.cursor (ticks w d).1 text).2) := by
        have hseq : UInt64.ofNat st.auditSeq.toNat = st.auditSeq := UInt64.ofNat_toNat
        unfold auditRecord State.cursor
        rw [hnext, hseq, hrecord]
      rwa [hcursor]
    · rw [hresult, if_neg fun h => hwrite h.2.2, if_neg hwrite]
      obtain ⟨-, hmade⟩ | ⟨hkept, -⟩ := bw_one_made w (ticks w d).2 (auditStartLba + st.auditSeq.toNat)
        record.1
      · exact .of_wroteIn (hmade.wroteIn fun _ h => absurd h List.not_mem_nil)
      · exact absurd (keeps.lost_iff.mpr hwrite) hkept

end Redoubt.Storage
