import Redoubt.Foundation.WriteLog
import Redoubt.Storage.Layout

/-!
# The block device and its faults

A disk is a sector for every sector number.  What the outside decides is collected
in a `World`: which block reads fail or deliver other data, which writes fail and how,
the clock, and the fate of the kernel calls an update makes.  The n-th call of a kind is
answered by the n-th answer, so one world describes one run.  Sector writes are atomic
and logged in the order in which they reach the disk.
-/

namespace Redoubt.Storage

open Redoubt.Foundation

abbrev Disk := Nat → Sector

/-- How a block write fails: the transfer stops before its last sector, or it is complete
and the flush behind it fails. -/
inductive WriteFault where
  | short (count : Nat)
  | flush

/-- How many sectors of a failed write reach the disk. -/
def WriteFault.landed : WriteFault → Nat → Nat
  | short count, total => min count (total - 1)
  | flush, total => total

/-- The outcomes of everything the storage service asks of its surroundings. -/
structure World where
  /-- A failed block read, or what each sector read turns into; by call and first sector. -/
  read : Nat → Nat → Option (Nat → Sector → Sector)
  write : Nat → Option WriteFault
  tick : Nat → UInt64
  /-- Error number of a refused capability derivation. -/
  derive : Nat → Option UInt64
  /-- Error number of a refused spawn. -/
  spawn : Nat → Option UInt64
  /-- An update agent that is stopped after some sector writes, with the code seen. -/
  agent : Nat → Option (Nat × UInt64)

structure Dev where
  disk : Disk
  /-- Sector writes that reached the disk, oldest first. -/
  log : List (Nat × Sector)
  reads : Nat
  writes : Nat
  ticks : Nat
  derives : Nat
  spawns : Nat

/-- A device at power-on. -/
def Dev.fresh (disk : Disk) : Dev :=
  { disk, log := [], reads := 0, writes := 0, ticks := 0, derives := 0, spawns := 0 }

/-- Sectors that reach the disk. -/
def Dev.put (d : Dev) (entries : List (Nat × Sector)) : Dev :=
  { d with disk := applyWrites d.disk entries, log := d.log ++ entries }

/-- The bytes of consecutive sectors. -/
def sectorBytes (sectors : List Sector) : List UInt8 := sectors.flatMap (·.val)

/-- One sector of a byte string, filled up with zeros. -/
def padSector (bytes : List UInt8) : Sector :=
  ⟨bytes.take 512 ++ List.replicate (512 - bytes.length) 0, by simp; omega⟩

/-- The sectors of a byte string. -/
def toSectors (count : Nat) (bytes : List UInt8) : List Sector :=
  (List.range count).map fun index => padSector (bytes.drop (512 * index))

/-- What is stored in consecutive sectors. -/
def Disk.sectors (disk : Disk) (lba count : Nat) : List Sector :=
  (List.range count).map fun index => disk (lba + index)

/-- Read sectors into a buffer. -/
def br (w : World) (d : Dev) (lba count : Nat) : Option (List UInt8) × Dev :=
  let after := { d with reads := d.reads + 1 }
  match w.read d.reads lba with
  | none => (none, after)
  | some seen =>
      let sectors := (List.range count).map fun index => seen (lba + index) (d.disk (lba + index))
      (some (sectorBytes sectors), after)

/-- Read a single sector. -/
def brSector (w : World) (d : Dev) (lba : Nat) : Option Sector × Dev :=
  let after := { d with reads := d.reads + 1 }
  ((w.read d.reads lba).map fun seen => seen lba (d.disk lba), after)

/-- Write sectors and flush them. -/
def bw (w : World) (d : Dev) (lba : Nat) (sectors : List Sector) : Bool × Dev :=
  let after := { d with writes := d.writes + 1 }
  match w.write d.writes with
  | none => (true, after.put (numbered lba sectors))
  | some fault =>
      (false, after.put (numbered lba (sectors.take (fault.landed sectors.length))))

def ticks (w : World) (d : Dev) : UInt64 × Dev :=
  (w.tick d.ticks, { d with ticks := d.ticks + 1 })

/-! ### Sector bytes -/

@[simp]
theorem length_sectorBytes (sectors : List Sector) :
    (sectorBytes sectors).length = 512 * sectors.length := by
  induction sectors with
  | nil => rfl
  | cons sector sectors ih =>
      change (sector.val ++ sectorBytes sectors).length = _
      rw [List.length_append, ih, sector.property, List.length_cons]
      ring

theorem sectorBytes_append (first second : List Sector) :
    sectorBytes (first ++ second) = sectorBytes first ++ sectorBytes second := by
  simp [sectorBytes]

@[simp]
theorem length_toSectors (count : Nat) (bytes : List UInt8) :
    (toSectors count bytes).length = count := by
  simp [toSectors]

theorem toSectors_succ (count : Nat) (bytes : List UInt8) :
    toSectors (count + 1) bytes = padSector bytes :: toSectors count (bytes.drop 512) := by
  simp only [toSectors, List.range_succ_eq_map, List.map_cons, List.map_map, Function.comp_def,
    List.drop_drop, Nat.mul_zero, List.drop_zero, Nat.mul_succ]
  congr 2
  funext index
  rw [Nat.add_comm]

/-- Sectors cut from a byte string hold it, with zeros behind it. -/
theorem sectorBytes_toSectors (count : Nat) (bytes : List UInt8) :
    sectorBytes (toSectors count bytes) =
      bytes.take (512 * count) ++ List.replicate (512 * count - bytes.length) 0 := by
  induction count generalizing bytes with
  | zero => simp [toSectors, sectorBytes]
  | succ count ih =>
      rw [toSectors_succ]
      change (padSector bytes).val ++ sectorBytes (toSectors count (bytes.drop 512)) = _
      rw [ih]
      change (bytes.take 512 ++ List.replicate (512 - bytes.length) 0) ++
        ((bytes.drop 512).take (512 * count) ++
          List.replicate (512 * count - (bytes.drop 512).length) 0) = _
      by_cases hlong : 512 ≤ bytes.length
      · have hcount : 512 * (count + 1) = 512 + 512 * count := by ring
        have hzero : 512 - bytes.length = 0 := by omega
        have hrest : 512 * count - (bytes.drop 512).length = 512 * (count + 1) - bytes.length := by
          rw [List.length_drop]
          omega
        rw [hzero, hrest, List.replicate_zero, List.append_nil, ← List.append_assoc, hcount,
          List.take_add]
      · have hshort : bytes.length ≤ 512 := by omega
        have hshort' : bytes.length ≤ 512 * (count + 1) := by omega
        rw [List.take_of_length_le hshort, List.drop_eq_nil_of_le hshort,
          List.take_of_length_le hshort', List.take_nil, List.nil_append, List.append_assoc,
          ← List.replicate_add, List.length_nil]
        congr 2
        omega

/-! ### What a call leaves on the device -/

/-- The device after some sector writes, all of them to sectors with a property. -/
def Dev.WroteIn (P : Nat → Prop) (d after : Dev) : Prop :=
  ∃ entries, after.disk = applyWrites d.disk entries ∧ after.log = d.log ++ entries ∧
    ∀ entry ∈ entries, P entry.1

namespace Dev.WroteIn

variable {P Q : Nat → Prop} {d after last : Dev}

theorem of_eq (hdisk : after.disk = d.disk) (hlog : after.log = d.log) : d.WroteIn P after :=
  ⟨[], hdisk, hlog.trans (List.append_nil _).symm, fun _ h => (List.not_mem_nil h).elim⟩

theorem refl : d.WroteIn P d := of_eq rfl rfl

theorem trans (first : d.WroteIn P after) (second : after.WroteIn P last) : d.WroteIn P last := by
  obtain ⟨entries, hdisk, hlog, hmem⟩ := first
  obtain ⟨entries', hdisk', hlog', hmem'⟩ := second
  refine ⟨entries ++ entries', ?_, ?_, ?_⟩
  · rw [hdisk', hdisk, applyWrites_append]
  · rw [hlog', hlog, List.append_assoc]
  · intro entry h
    rcases List.mem_append.mp h with h | h
    · exact hmem entry h
    · exact hmem' entry h

theorem mono (h : d.WroteIn P after) (weaker : ∀ lba, P lba → Q lba) : d.WroteIn Q after := by
  obtain ⟨entries, hdisk, hlog, hmem⟩ := h
  exact ⟨entries, hdisk, hlog, fun entry hentry => weaker _ (hmem entry hentry)⟩

/-- Sectors without the property are unchanged. -/
theorem disk_eq (h : d.WroteIn P after) {lba : Nat} (outside : ¬ P lba) :
    after.disk lba = d.disk lba := by
  obtain ⟨entries, hdisk, -, hmem⟩ := h
  rw [hdisk]
  refine applyWrites_of_untouched _ _ _ fun entry hentry heq => outside ?_
  rw [← heq]
  exact hmem entry hentry

end Dev.WroteIn

/-- Nothing was written, and no write was tried. -/
structure Dev.OnlyRead (d after : Dev) : Prop where
  disk : after.disk = d.disk
  log : after.log = d.log
  writes : after.writes = d.writes

namespace Dev.OnlyRead

variable {d after last : Dev}

theorem refl : d.OnlyRead d := ⟨rfl, rfl, rfl⟩

theorem trans (first : d.OnlyRead after) (second : after.OnlyRead last) : d.OnlyRead last :=
  ⟨second.disk.trans first.disk, second.log.trans first.log, second.writes.trans first.writes⟩

theorem wroteIn {P : Nat → Prop} (h : d.OnlyRead after) : d.WroteIn P after :=
  .of_eq h.disk h.log

end Dev.OnlyRead

/-- Exactly these sector writes reached the disk. -/
def Dev.Made (d : Dev) (entries : List (Nat × Sector)) (after : Dev) : Prop :=
  after.disk = applyWrites d.disk entries ∧ after.log = d.log ++ entries

namespace Dev.Made

variable {d after last : Dev} {entries entries' : List (Nat × Sector)}

theorem trans (first : d.Made entries after) (second : after.Made entries' last) :
    d.Made (entries ++ entries') last := by
  refine ⟨?_, ?_⟩
  · rw [second.1, first.1, applyWrites_append]
  · rw [second.2, first.2, List.append_assoc]

theorem of_onlyRead (h : d.OnlyRead after) : d.Made [] after :=
  ⟨h.disk, h.log.trans (List.append_nil _).symm⟩

theorem quiet (h : d.Made entries after) (rest : after.Made [] last) : d.Made entries last := by
  have hboth := h.trans rest
  rwa [List.append_nil] at hboth

theorem wroteIn {P : Nat → Prop} (h : d.Made entries after) (inside : ∀ entry ∈ entries, P entry.1) :
    d.WroteIn P after :=
  ⟨entries, h.1, h.2, inside⟩

end Dev.Made

/-- The sector writes of a call. -/
def madeWrites (d d' : Dev) : List (Nat × Sector) := d'.log.drop d.log.length

theorem madeWrites_eq {d d' : Dev} {entries : List (Nat × Sector)} (h : d'.log = d.log ++ entries) :
    madeWrites d d' = entries := by
  rw [madeWrites, h, List.drop_left]

variable (w : World) (d : Dev) (lba : Nat)

theorem br_onlyRead (count : Nat) : d.OnlyRead (br w d lba count).2 := by
  unfold br
  cases w.read d.reads lba with
  | none => exact ⟨rfl, rfl, rfl⟩
  | some => exact ⟨rfl, rfl, rfl⟩

theorem length_br {count : Nat} {data : List UInt8} (h : (br w d lba count).1 = some data) :
    data.length = 512 * count := by
  unfold br at h
  cases hread : w.read d.reads lba with
  | none =>
      rw [hread] at h
      cases h
  | some =>
      rw [hread] at h
      cases h
      simp

theorem brSector_onlyRead : d.OnlyRead (brSector w d lba).2 := ⟨rfl, rfl, rfl⟩

theorem ticks_onlyRead : d.OnlyRead (ticks w d).2 := ⟨rfl, rfl, rfl⟩

theorem bw_wroteIn (sectors : List Sector) :
    d.WroteIn (fun sector => lba ≤ sector ∧ sector < lba + sectors.length) (bw w d lba sectors).2 := by
  unfold bw
  cases w.write d.writes with
  | none => exact ⟨numbered lba sectors, rfl, rfl, fun entry h => mem_numbered h⟩
  | some =>
      refine ⟨_, rfl, rfl, fun entry h => ?_⟩
      obtain ⟨hlow, hhigh⟩ := mem_numbered h
      rw [List.length_take] at hhigh
      omega

theorem bw_fst (sectors : List Sector) : (bw w d lba sectors).1 = (w.write d.writes).isNone := by
  unfold bw
  cases w.write d.writes with
  | none => rfl
  | some => rfl

theorem WriteFault.landed_le (fault : WriteFault) (total : Nat) : fault.landed total ≤ total := by
  cases fault with
  | short => exact (Nat.min_le_right _ _).trans (Nat.sub_le _ _)
  | flush => exact Nat.le_refl _

/-- A write reaches the disk as a whole, or fails after some of its sectors. -/
theorem bw_cases (sectors : List Sector) :
    (w.write d.writes = none ∧ ∃ after, bw w d lba sectors = (true, after) ∧
        d.Made (numbered lba sectors) after ∧ after.writes = d.writes + 1) ∨
      ∃ fault after, w.write d.writes = some fault ∧ bw w d lba sectors = (false, after) ∧
        d.Made ((numbered lba sectors).take (fault.landed sectors.length)) after := by
  unfold bw
  cases w.write d.writes with
  | none => exact .inl ⟨rfl, _, rfl, ⟨rfl, rfl⟩, rfl⟩
  | some fault =>
      refine .inr ⟨fault, _, rfl, rfl, ?_⟩
      rw [← numbered_take]
      exact ⟨rfl, rfl⟩

/-! ### Writes of one sector -/

/-- A write of one sector that fails and leaves the sector as it was. -/
def World.Lost (w : World) (call : Nat) : Prop := ∃ count, w.write call = some (.short count)

/-- A write is not reported as failed once all of its sectors are on the disk, so that a
failed write of one sector leaves the sector unchanged. -/
def World.FailuresKeep (w : World) : Prop := ∀ call, w.write call ≠ some .flush

theorem World.FailuresKeep.lost_iff {w : World} (keeps : w.FailuresKeep) {call : Nat} :
    w.Lost call ↔ w.write call ≠ none := by
  constructor
  · rintro ⟨count, hshort⟩
    rw [hshort]
    exact Option.some_ne_none _
  · intro hfails
    obtain ⟨fault, hfault⟩ := Option.ne_none_iff_exists'.mp hfails
    cases fault with
    | short count => exact ⟨count, hfault⟩
    | flush => exact absurd hfault (keeps call)

theorem World.not_lost_of_none {w : World} {call : Nat} (ok : w.write call = none) : ¬ w.Lost call := by
  rintro ⟨count, hshort⟩
  rw [ok] at hshort
  cases hshort

theorem WriteFault.landed_one {w : World} {call : Nat} {fault : WriteFault}
    (fails : w.write call = some fault) : fault.landed 1 = 0 ↔ w.Lost call := by
  unfold World.Lost
  rw [fails]
  cases fault with
  | short count => exact iff_of_true (Nat.min_zero count) ⟨count, rfl⟩
  | flush => exact iff_of_false Nat.one_ne_zero (by simp)

theorem World.any_landed_iff {w : World} {call : Nat} :
    (w.write call).any (fun fault => fault.landed 1 = 0) = true ↔ w.Lost call := by
  cases hwrite : w.write call with
  | none => exact iff_of_false Bool.false_ne_true (World.not_lost_of_none hwrite)
  | some fault => exact decide_eq_true_iff.trans (WriteFault.landed_one hwrite)

instance (w : World) (call : Nat) : Decidable (w.Lost call) := decidable_of_iff _ World.any_landed_iff

theorem World.FailuresKeep.landed_lt {w : World} (keeps : w.FailuresKeep) {call total : Nat}
    {fault : WriteFault} (fails : w.write call = some fault) (nonempty : 0 < total) :
    fault.landed total < total := by
  cases fault with
  | short => exact (Nat.min_le_right _ _).trans_lt (Nat.sub_lt nonempty Nat.one_pos)
  | flush => exact absurd fails (keeps call)

/-- A lost write changes nothing, every other one reaches the disk. -/
theorem bw_one_made (sector : Sector) :
    (w.Lost d.writes ∧ d.Made [] (bw w d lba [sector]).2) ∨
      (¬ w.Lost d.writes ∧ d.Made [(lba, sector)] (bw w d lba [sector]).2) := by
  obtain ⟨hok, after, hbw, hmade, -⟩ | ⟨fault, after, hfault, hbw, hmade⟩ := bw_cases w d lba [sector]
  · rw [hbw]
    exact .inr ⟨World.not_lost_of_none hok, hmade⟩
  · rw [hbw]
    rw [List.length_singleton] at hmade
    by_cases hlost : w.Lost d.writes
    · rw [(WriteFault.landed_one hfault).mpr hlost] at hmade
      exact .inl ⟨hlost, hmade⟩
    · have hlanded : 1 ≤ fault.landed 1 :=
        Nat.one_le_iff_ne_zero.mpr fun h => hlost ((WriteFault.landed_one hfault).mp h)
      rw [List.take_of_length_le hlanded] at hmade
      exact .inr ⟨hlost, hmade⟩

theorem bw_one_wroteIn (sector : Sector) : d.WroteIn (· = lba) (bw w d lba [sector]).2 :=
  (bw_wroteIn w d lba [sector]).mono fun other h => by
    have hone : [sector].length = 1 := rfl
    omega

end Redoubt.Storage
