import Redoubt.Storage.AppInstall
import Redoubt.Storage.CrashSafety

/-!
# The application store as a map of slots

What a disk holds in its application slots is a map from slots to applications.  A
first part of the writes of an installation changes the map at one slot only: the slot
is empty until the last write, then it holds the package.  A removal empties slots.
-/

namespace Redoubt.Storage

open Redoubt.Foundation Redoubt.Crypto

/-! ### Names and versions -/

theorem sameAppName_iff {entry : AppEntry} {name : List UInt8} :
    sameAppName entry name = true ↔ entry.label = name := by
  unfold sameAppName
  rw [Bool.and_eq_true, beq_iff_eq, beq_iff_eq]
  constructor
  · exact fun h => h.2
  · intro h
    refine ⟨?_, h⟩
    rw [← h, AppMeta.length_label]

theorem laterVersion_spec (best : Option AppEntry) (entry : AppEntry) : ∃ later,
    laterVersion best entry = some later ∧ entry.version ≤ later.version ∧
      (∀ old, best = some old → old.version ≤ later.version) ∧ (later = entry ∨ best = some later) := by
  cases best with
  | none => exact ⟨entry, rfl, UInt64.le_refl _, fun _ h => absurd h.symm (Option.some_ne_none _),
      .inl rfl⟩
  | some old =>
      unfold laterVersion
      dsimp only
      split_ifs with hle
      · exact ⟨entry, rfl, UInt64.le_refl _, fun other h => (Option.some.inj h) ▸ hle, .inl rfl⟩
      · refine ⟨old, rfl, ?_, fun other h => (Option.some.inj h) ▸ UInt64.le_refl _, .inr rfl⟩
        exact UInt64.le_of_lt (UInt64.not_le.mp hle)

/-- The best entry of a list is in it, and no version is larger. -/
theorem foldl_laterVersion (entries : List AppEntry) (start : Option AppEntry) :
    (∀ entry, entry ∈ entries ∨ start = some entry → ∃ best,
        entries.foldl laterVersion start = some best ∧ entry.version ≤ best.version) ∧
      ∀ best, entries.foldl laterVersion start = some best → best ∈ entries ∨ start = some best := by
  induction entries generalizing start with
  | nil => exact ⟨fun entry h => ⟨entry, h.resolve_left List.not_mem_nil, UInt64.le_refl _⟩,
      fun _ => .inr⟩
  | cons first _ ih =>
      obtain ⟨later, hlater, hfirst, hstart, hfrom⟩ := laterVersion_spec start first
      obtain ⟨hmax, hmem⟩ := ih (some later)
      rw [List.foldl_cons, hlater]
      refine ⟨fun entry hentry => ?_, fun best hbest => ?_⟩
      · obtain ⟨best, hbest, hle⟩ := hmax later (.inr rfl)
        rcases hentry with hentry | hentry
        · rcases List.mem_cons.mp hentry with rfl | hrest
          · exact ⟨best, hbest, UInt64.le_trans hfirst hle⟩
          · exact hmax entry (.inl hrest)
        · exact ⟨best, hbest, UInt64.le_trans (hstart entry hentry) hle⟩
      · rcases hmem best hbest with hrest | heq
        · exact .inl (List.mem_cons_of_mem _ hrest)
        · cases heq
          rcases hfrom with rfl | hold
          · exact .inl List.mem_cons_self
          · exact .inr hold

section Best

variable {st : State} {name : List UInt8}

theorem bestApp_mem {best : AppEntry} (h : bestApp st name = some best) :
    best ∈ st.apps ∧ best.label = name := by
  have hmem := (foldl_laterVersion (st.apps.filter (sameAppName · name)) none).2 best h
  rw [List.mem_filter, sameAppName_iff] at hmem
  exact hmem.resolve_right fun hnone => absurd hnone.symm (Option.some_ne_none _)

/-- No listed version of a name is larger than the best one. -/
theorem bestApp_max {entry : AppEntry} (listed : entry ∈ st.apps) (named : entry.label = name) :
    ∃ best, bestApp st name = some best ∧ entry.version ≤ best.version :=
  (foldl_laterVersion (st.apps.filter (sameAppName · name)) none).1 entry
    (.inl (List.mem_filter.mpr ⟨listed, sameAppName_iff.mpr named⟩))

end Best

/-! ### The map of slots -/

/-- What a slot holds: an application that verifies, with its payload. -/
def storedApp (disk : Disk) (key pubkey : Bytes 32) (slot : UInt8) : Option (AppView × List UInt8) :=
  (appOnDisk disk key pubkey slot).map fun found => (found.1.view, found.2)

section Map

variable {disk : Disk} {key pubkey : Bytes 32} {slot : UInt8} {lba : Nat}

theorem storedApp_slot {view : AppView} {payload : List UInt8}
    (h : storedApp disk key pubkey slot = some (view, payload)) : view.slot = slot := by
  obtain ⟨⟨entry, bytes⟩, hfound, heq⟩ := Option.map_eq_some_iff.mp h
  cases heq
  exact appOnDisk_slot hfound

theorem storedApp_located {found : AppView × List UInt8}
    (h : storedApp disk key pubkey slot = some found) : ∃ lba, appSlotLba slot = some lba := by
  obtain ⟨⟨entry, bytes⟩, hfound, -⟩ := Option.map_eq_some_iff.mp h
  obtain ⟨lba, -, hlba, -⟩ := appOnDisk_eq_some_iff.mp hfound
  exact ⟨lba, hlba⟩

theorem storedApp_congr {other : Disk} (same : ∀ lba, AppOwns slot lba → disk lba = other lba) :
    storedApp disk key pubkey slot = storedApp other key pubkey slot := by
  rw [storedApp, storedApp, appOnDisk_congr same]

theorem storedApp_cleared (located : appSlotLba slot = some lba) (cleared : disk lba = Bytes.zeros 512) :
    storedApp disk key pubkey slot = none := by
  rw [storedApp, appOnDisk_cleared located cleared, Option.map_none]

theorem not_audit_of_appOwns (h : AppOwns slot lba) : ¬ AuditSector lba := by
  unfold AppOwns appStartLba at h
  unfold AuditSector auditEndLba
  omega

/-- Audit records leave the applications alone. -/
theorem storedApp_wroteIn {d after : Dev} (h : d.WroteIn AuditSector after) :
    storedApp after.disk key pubkey = storedApp d.disk key pubkey :=
  funext fun _ => storedApp_congr fun _ howns => h.disk_eq (not_audit_of_appOwns howns)

/-! ### Installations -/

variable {pkg : AppPackage}

/-- A header with its tag is not a cleared one. -/
theorem storedHeader_ne_zeros (key : Bytes 32) (located : appSlotLba slot = some lba)
    (admissible : AppAdmissible pubkey pkg) : storedHeader key slot pkg ≠ Bytes.zeros 512 := by
  obtain ⟨hdr, hwritten⟩ := admissible.header located
  intro hzeros
  unfold storedHeader at hzeros
  rw [hwritten] at hzeros
  obtain ⟨parsed, hparsed, -⟩ := parseAppHeader_sealed
    (appHeaderMac key hdr (storedCiphertext key slot pkg)) admissible.nonempty hwritten
  change hdr.splice 160 (appHeaderMac key hdr (storedCiphertext key slot pkg)) = _ at hzeros
  rw [hzeros, parseAppHeader_zeros] at hparsed
  cases hparsed

/-- The header is the last write. -/
theorem mem_installWrites_take (located : appSlotLba slot = some lba)
    (admissible : AppAdmissible pubkey pkg) {count : Nat} :
    (lba, storedHeader key slot pkg) ∈ (installWrites key slot pkg lba).take count ↔
      (installWrites key slot pkg lba).length ≤ count := by
  have hsplit : installWrites key slot pkg lba =
      ((lba, Bytes.zeros 512) :: numbered (lba + 1) (storedBody key slot pkg)) ++
        [(lba, storedHeader key slot pkg)] := rfl
  generalize hfront : (lba, Bytes.zeros 512) :: numbered (lba + 1) (storedBody key slot pkg) =
    front at hsplit
  have hearlier : (lba, storedHeader key slot pkg) ∉ front := by
    rw [← hfront]
    intro hmem
    rcases List.mem_cons.mp hmem with heq | hbody
    · exact storedHeader_ne_zeros key located admissible (congrArg Prod.snd heq)
    · have hlow := (mem_numbered hbody).1
      dsimp only at hlow
      omega
  rw [hsplit, List.length_append, List.length_singleton]
  constructor
  · intro hmem
    by_contra hshort
    rw [List.take_append_of_le_length (by omega)] at hmem
    exact hearlier (List.mem_of_mem_take hmem)
  · intro hall
    rw [List.take_of_length_le (by simpa using hall)]
    exact List.mem_append_right _ (List.mem_singleton.mpr rfl)

/-- The writes of an installation stay in its slot. -/
theorem installWrites_inside (located : appSlotLba slot = some lba)
    (admissible : AppAdmissible pubkey pkg) :
    ∀ entry ∈ installWrites key slot pkg lba, AppOwns slot entry.1 := by
  intro entry hentry
  rcases List.mem_cons.mp hentry with rfl | hentry
  · exact appOwns_header located
  · rcases List.mem_append.mp hentry with hbody | hlast
    · refine appOwns_payload located admissible.payload_sectors ?_
      have hmem := mem_numbered hbody
      rwa [storedBody, length_toSectors] at hmem
    · rw [List.mem_singleton] at hlast
      rw [hlast]
      exact appOwns_header located

/-- Until the last write the header stays cleared. -/
theorem installWrites_header {count : Nat} (started : 0 < count)
    (cut : count < (installWrites key slot pkg lba).length) :
    applyWrites disk ((installWrites key slot pkg lba).take count) lba = Bytes.zeros 512 := by
  obtain ⟨count, rfl⟩ := Nat.exists_eq_add_of_lt started
  rw [length_installWrites] at cut
  rw [Nat.zero_add, installWrites, List.take_succ_cons, List.take_append_of_le_length]
  · change applyWrites (Function.update disk lba (Bytes.zeros 512)) _ lba = _
    rw [applyWrites_of_untouched, Function.update_self]
    intro entry hentry
    have hlow := (mem_numbered (List.mem_of_mem_take hentry)).1
    omega
  · rw [length_numbered, storedBody, length_toSectors]
    omega

/-- All writes together leave the header and the encrypted payload. -/
theorem installWrites_stored (disk : Disk) (key : Bytes 32) (slot : UInt8) (pkg : AppPackage)
    (lba : Nat) :
    let after := applyWrites disk (installWrites key slot pkg lba)
    after lba = storedHeader key slot pkg ∧
      Disk.sectors after (lba + 1) ((pkg.payload.length + 511) / 512) = storedBody key slot pkg := by
  dsimp only
  have hsplit : applyWrites disk (installWrites key slot pkg lba) =
      Function.update (applyWrites (Function.update disk lba (Bytes.zeros 512))
        (numbered (lba + 1) (storedBody key slot pkg))) lba (storedHeader key slot pkg) := by
    change applyWrites (Function.update disk lba (Bytes.zeros 512)) (_ ++ _) = _
    rw [applyWrites_append]
    rfl
  have hlen : (storedBody key slot pkg).length = (pkg.payload.length + 511) / 512 :=
    length_toSectors ..
  rw [hsplit]
  refine ⟨Function.update_self .., ?_⟩
  rw [← hlen]
  refine Eq.trans ?_ (sectors_applyWrites (Function.update disk lba (Bytes.zeros 512)) (lba + 1)
    (storedBody key slot pkg))
  refine List.map_congr_left fun index _ => Function.update_of_ne ?_ _ _
  omega

/-- The map after a first part of the writes of an installation. -/
theorem storedApp_install (located : appSlotLba slot = some lba)
    (admissible : AppAdmissible pubkey pkg) (count : Nat) :
    storedApp (applyWrites disk ((installWrites key slot pkg lba).take count)) key pubkey =
      if count = 0 then storedApp disk key pubkey
      else Function.update (storedApp disk key pubkey) slot
        (if count < (installWrites key slot pkg lba).length then none
          else some (storedView slot pkg, pkg.payload)) := by
  by_cases hzero : count = 0
  · rw [if_pos hzero, hzero, List.take_zero, applyWrites_nil]
  rw [if_neg hzero]
  funext other
  by_cases hother : other = slot
  · subst hother
    rw [Function.update_self]
    by_cases hcut : count < (installWrites key other pkg lba).length
    · rw [if_pos hcut]
      exact storedApp_cleared located (installWrites_header (Nat.pos_of_ne_zero hzero) hcut)
    · rw [if_neg hcut, List.take_of_length_le (by omega)]
      obtain ⟨hheader, hbody⟩ := installWrites_stored disk key other pkg lba
      obtain ⟨entry, hfound, hview⟩ := appOnDisk_stored located admissible hheader hbody
      rw [storedApp, hfound, Option.map_some, hview]
  · rw [Function.update_of_ne hother]
    refine storedApp_congr fun sector howns => applyWrites_of_untouched _ _ _ fun entry hentry heq => ?_
    have hinside := installWrites_inside located admissible entry (List.mem_of_mem_take hentry)
    rw [heq] at hinside
    exact hother (appOwns_disjoint howns hinside)

/-! ### Removals -/

/-- A write that clears the header of a slot. -/
def ClearsHeader (entry : Nat × Sector) : Prop :=
  entry.2 = Bytes.zeros 512 ∧ ∃ slot, appSlotLba slot = some entry.1

theorem appSlotLba_inj {other : UInt8} (h : appSlotLba slot = some lba)
    (h' : appSlotLba other = some lba) : slot = other :=
  appOwns_disjoint (appOwns_header h) (appOwns_header h')

/-- The map after some headers were cleared. -/
theorem storedApp_clears {writes : List (Nat × Sector)} (clears : ∀ entry ∈ writes, ClearsHeader entry) :
    storedApp (applyWrites disk writes) key pubkey slot =
      if ∃ lba, appSlotLba slot = some lba ∧ (lba, Bytes.zeros 512) ∈ writes then none
      else storedApp disk key pubkey slot := by
  by_cases hcleared : ∃ lba, appSlotLba slot = some lba ∧ (lba, Bytes.zeros 512) ∈ writes
  · rw [if_pos hcleared]
    obtain ⟨lba, hlba, hmem⟩ := hcleared
    exact storedApp_cleared hlba
      (applyWrites_of_same _ _ hmem fun entry hentry _ => (clears entry hentry).1)
  · rw [if_neg hcleared]
    refine storedApp_congr fun sector howns => applyWrites_of_untouched _ _ _ fun entry hentry heq => ?_
    obtain ⟨hzeros, other, hother⟩ := clears entry hentry
    have hslot : slot = other := appOwns_disjoint howns (heq ▸ appOwns_header hother)
    refine hcleared ⟨entry.1, hslot ▸ hother, ?_⟩
    rw [← hzeros]
    exact hentry

/-- The map after one header was cleared. -/
theorem storedApp_clear (located : appSlotLba slot = some lba) :
    storedApp (applyWrites disk [(lba, Bytes.zeros 512)]) key pubkey =
      Function.update (storedApp disk key pubkey) slot none := by
  funext other
  rw [storedApp_clears fun entry hentry => by
    rw [List.mem_singleton.mp hentry]
    exact ⟨rfl, slot, located⟩]
  by_cases hother : other = slot
  · subst hother
    rw [if_pos ⟨lba, located, List.mem_singleton.mpr rfl⟩, Function.update_self]
  · rw [if_neg, Function.update_of_ne hother]
    rintro ⟨lba', hlba', hmem⟩
    cases List.mem_singleton.mp hmem
    exact hother (appSlotLba_inj hlba' located)

end Map

/-! ### The list and the disk -/

/-- Two lists have the same elements if they have the same ones for every value of a key. -/
theorem perm_iff_filter {α β : Type} [DecidableEq α] [DecidableEq β] (key : α → β) {l m : List α} :
    l.Perm m ↔ ∀ value, (l.filter (key · = value)).Perm (m.filter (key · = value)) := by
  constructor
  · intro h value
    exact h.filter _
  · intro h
    rw [List.perm_iff_count]
    intro a
    have hcount := List.perm_iff_count.mp (h (key a)) a
    rwa [List.count_filter (by simp), List.count_filter (by simp)] at hcount

/-- A table over different keys holds one element for each key at most. -/
theorem filter_filterMap_key {α β : Type} [DecidableEq β] {table : β → Option α} {key : α → β}
    (own : ∀ k a, table k = some a → key a = k) {keys : List β} (nodup : keys.Nodup) (value : β) :
    (keys.filterMap table).filter (key · = value) =
      if value ∈ keys then (table value).toList else [] := by
  induction keys with
  | nil => rfl
  | cons k keys ih =>
      obtain ⟨hk, hkeys⟩ := List.nodup_cons.mp nodup
      have hrest := ih hkeys
      by_cases hvalue : value = k
      · subst hvalue
        rw [if_neg hk] at hrest
        rw [if_pos List.mem_cons_self, List.filterMap_cons]
        cases hentry : table value with
        | none => exact hrest
        | some => simp [own _ _ hentry, hrest]
      · have hmem : value ∈ k :: keys ↔ value ∈ keys := by simp [hvalue]
        rw [List.filterMap_cons, if_congr hmem rfl rfl, ← hrest]
        cases hentry : table k with
        | none => rfl
        | some a =>
            have hkey : key a ≠ value := by
              rw [own _ _ hentry]
              exact fun h => hvalue h.symm
            simp [hkey]

/-- What is listed for a slot. -/
def listedAt (apps : List AppEntry) (slot : UInt8) : List AppView :=
  (apps.map AppEntry.view).filter (·.slot = slot)

/-- The list and the disk say the same about a slot. -/
def AgreesAt (st : State) (disk : Disk) (slot : UInt8) : Prop :=
  listedAt st.apps slot = ((storedApp disk st.volKey st.pubkey slot).map (·.1)).toList

def Agrees (st : State) (disk : Disk) : Prop := ∀ slot, AgreesAt st disk slot

/-- The same entries in any order. -/
def SameEntries (apps others : List AppEntry) : Prop :=
  (apps.map AppEntry.view).Perm (others.map AppEntry.view)

/-- What a load lists, as the map of slots gives it. -/
theorem map_view_appsOnDisk (disk : Disk) (key pubkey : Bytes 32) :
    (appsOnDisk disk key pubkey).map AppEntry.view =
      ([0, 1, 2, 3, 4, 5, 6, 7] : List UInt8).filterMap fun slot =>
        (storedApp disk key pubkey slot).map (·.1) := by
  rw [appsOnDisk, List.map_filterMap]
  congr 1
  funext slot
  rw [storedApp, Option.map_map, Option.map_map]
  rfl

theorem listedAt_appsOnDisk (disk : Disk) (key pubkey : Bytes 32) (slot : UInt8) :
    listedAt (appsOnDisk disk key pubkey) slot = ((storedApp disk key pubkey slot).map (·.1)).toList := by
  have hown : ∀ slot view, (storedApp disk key pubkey slot).map (·.1) = some view →
      view.slot = slot := by
    intro slot view h
    obtain ⟨⟨found, payload⟩, hfound, rfl⟩ := Option.map_eq_some_iff.mp h
    exact storedApp_slot hfound
  rw [listedAt, map_view_appsOnDisk, filter_filterMap_key hown (by decide)]
  split_ifs with hslot
  · rfl
  · cases hstored : storedApp disk key pubkey slot with
    | none => rfl
    | some =>
        obtain ⟨lba, hlba⟩ := storedApp_located hstored
        exact absurd (mem_appSlots (appSlotLba_lt hlba)) hslot

theorem agrees_iff_sameEntries {st : State} {disk : Disk} :
    Agrees st disk ↔ SameEntries st.apps (appsOnDisk disk st.volKey st.pubkey) := by
  unfold Agrees SameEntries
  rw [perm_iff_filter AppView.slot]
  refine forall_congr' fun slot => ?_
  have hdisk := listedAt_appsOnDisk disk st.volKey st.pubkey slot
  unfold AgreesAt
  unfold listedAt at hdisk ⊢
  rw [hdisk]
  cases storedApp disk st.volKey st.pubkey slot with
  | none => exact List.perm_nil.symm
  | some => exact List.perm_singleton.symm

/-! ### Mounts -/

/-- A service that has mounted its volume. -/
structure Running (pubkey : Bytes 32) (disk : Disk) (st : State) : Prop where
  block : st.block = true
  recovery : st.recovery = false
  pinned : st.pubkey = pubkey
  keyed : st.volKey = superblockKey (disk superblockLba)

/-- Every slot that verifies is listed. -/
def ListsStored (st : State) (disk : Disk) : Prop :=
  ∀ slot view payload, storedApp disk st.volKey st.pubkey slot = some (view, payload) →
    ∃ entry ∈ st.apps, entry.view = view

theorem appsOnDisk_wroteIn {d after : Dev} (h : d.WroteIn AuditSector after) (key pubkey : Bytes 32) :
    appsOnDisk after.disk key pubkey = appsOnDisk d.disk key pubkey := by
  unfold appsOnDisk
  congr 1
  funext slot
  rw [appOnDisk_congr fun lba howns => h.disk_eq (not_audit_of_appOwns howns)]

/-- A mount lists what the slots store. -/
theorem boot_lists {w : World} {pubkey : Bytes 32} {disk : Disk} {c : Commit}
    (boots : BootsCommit pubkey disk c) (reads : w.ReadsSucceed) :
    ∃ st d, boot w true pubkey (Dev.fresh disk) = (st, d) ∧ (Dev.fresh disk).WroteIn AuditSector d ∧
      Running pubkey disk st ∧
      st.apps = appsOnDisk disk (superblockKey (disk superblockLba)) pubkey ∧ st.cachedApp = none := by
  obtain ⟨st, d, hboot, hwrote, hsystem, listed, before, hkey, hpubkey, hbefore, happs, hcached⟩ :=
    boots.boot reads
  refine ⟨st, d, hboot, hwrote, ?_, ?_, hcached⟩
  · exact
      { block := congrArg SystemView.block hsystem
        recovery := congrArg SystemView.recovery hsystem
        pinned := congrArg SystemView.pubkey hsystem
        keyed := congrArg SystemView.volKey hsystem }
  · rw [happs, loadApps_succeed reads, hkey, hpubkey, appsOnDisk_wroteIn hbefore]
    rfl

end Redoubt.Storage
