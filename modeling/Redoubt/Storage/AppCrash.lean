import Redoubt.Storage.AppAgreement
import Redoubt.Storage.AppStaging

/-!
# Installations and power loss

A power loss cuts the sector writes of an installation at any place.  What a load finds
afterwards is the map of slots with the target slot empty, or with the new package once
the last write was made.  So the best stored version of a name survives exactly when the
target slot does not hold it.
-/

namespace Redoubt.Storage

open Redoubt.Foundation Redoubt.Crypto

variable {slot : UInt8} {a : Admission} {payload : List UInt8}

/-! ### What a load finds -/

/-- A load of the disk lists this version of a name, and its payload is this one. -/
def Finds (w : World) (st : State) (disk : Disk) (label : List UInt8) (version : UInt64)
    (payload : List UInt8) : Prop :=
  ∃ entry ∈ (loadApps w st (Dev.fresh disk)).1.apps, entry.label = label ∧ entry.version = version ∧
    ∃ out after, validateAndLoadApp w st.volKey entry.slot st.pubkey st.workspace (Dev.fresh disk) =
      (some entry, out, after) ∧ out.read 0 entry.payloadLen = payload

/-- And no larger version of the name is found. -/
def FindsBest (w : World) (st : State) (disk : Disk) (label : List UInt8) (version : UInt64)
    (payload : List UInt8) : Prop :=
  Finds w st disk label version payload ∧
    ∀ version' payload', Finds w st disk label version' payload' → version' ≤ version

/-- A slot stores this version of a name. -/
def Stores (disk : Disk) (key pubkey : Bytes 32) (slot : UInt8) (label : List UInt8) (version : UInt64)
    (payload : List UInt8) : Prop :=
  ∃ view, storedApp disk key pubkey slot = some (view, payload) ∧ view.label = label ∧
    view.version = version

theorem finds_iff {w : World} (reads : w.ReadsSucceed) {st : State} {disk : Disk} {label : List UInt8}
    {version : UInt64} :
    Finds w st disk label version payload ↔
      ∃ slot, Stores disk st.volKey st.pubkey slot label version payload := by
  have hfresh : (Dev.fresh disk).disk = disk := rfl
  unfold Finds Stores
  rw [loadApps_succeed reads, hfresh]
  constructor
  · rintro ⟨entry, hentry, hlabel, hversion, out, after, hload, hread⟩
    obtain ⟨stored, hstored⟩ := mem_appsOnDisk.mp hentry
    obtain ⟨out', after', -, hload', hbuffer⟩ :=
      validateAndLoadApp_eq w st.volKey entry.slot st.pubkey st.workspace (Dev.fresh disk)
    rw [appSeen_succeed reads, hfresh] at hload' hbuffer
    have hpayload := hbuffer _ hstored
    obtain rfl : out' = out := congrArg (·.2.1) (hload'.symm.trans hload)
    rw [(appOnDisk_payload hstored).1, hread] at hpayload
    refine ⟨entry.slot, entry.view, ?_, hlabel, hversion⟩
    rw [storedApp, hstored, Option.map_some, ← hpayload]
  · rintro ⟨slot, view, hstored, hlabel, hversion⟩
    obtain ⟨⟨entry, payload⟩, hfound, heq⟩ := Option.map_eq_some_iff.mp hstored
    cases heq
    have hslot := appOnDisk_slot hfound
    subst hslot
    obtain ⟨out, after, -, hload, hbuffer⟩ :=
      validateAndLoadApp_eq w st.volKey entry.slot st.pubkey st.workspace (Dev.fresh disk)
    rw [appSeen_succeed reads, hfresh] at hload hbuffer
    have hpayload := hbuffer _ hfound
    rw [(appOnDisk_payload hfound).1] at hpayload
    rw [hfound] at hload
    exact ⟨entry, mem_appsOnDisk.mpr ⟨payload, hfound⟩, hlabel, hversion, out, after, hload, hpayload⟩

/-! ### Cuts -/

section Cut

variable {w : World} {st : State} {d : Dev}

/-- The disk after a first part of the writes of an installation request. -/
def installCut (w : World) (st : State) (d : Dev) (count : Nat) : Disk :=
  applyWrites d.disk ((madeWrites d (handle w st installRequest d).2.2).take count)

theorem installCut_refused (refused : admission w st d = none) (count : Nat) :
    installCut w st d count = d.disk := by
  obtain ⟨-, reply, out, after, hresult, honly, -⟩ | ⟨a, out, hsome, -⟩ := @installApp_cases w st d
  · rw [installCut, handle_installRequest, hresult,
      madeWrites_eq (honly.log.trans (List.append_nil _).symm), List.take_nil, applyWrites_nil]
  · rw [refused] at hsome
    cases hsome

/-- A cut of the request is a cut of its writes to the slot, up to audit records. -/
theorem installCut_stored (admitted : admission w st d = some a) (count : Nat) : ∃ made,
    (made = 0 ↔ count = 0 ∨ w.Lost d.writes) ∧ made ≤ count ∧
      ((a.lba, storedHeader st.volKey a.slot a.pkg) ∈
          (madeWrites d (handle w st installRequest d).2.2).take count ↔
        (installWrites st.volKey a.slot a.pkg a.lba).length ≤ made) ∧
      storedApp (installCut w st d count) st.volKey st.pubkey =
        storedApp (applyWrites d.disk ((installWrites st.volKey a.slot a.pkg a.lba).take made))
          st.volKey st.pubkey := by
  unfold installCut
  rw [handle_installRequest]
  obtain ⟨hnone, -⟩ | ⟨a', out, hsome, hadmitted, houtcome⟩ := @installApp_cases w st d
  · rw [admitted] at hnone
    cases hnone
  rw [admitted] at hsome
  cases hsome
  have hlast := @mem_installWrites_take st.volKey st.pubkey a.slot a.lba a.pkg hadmitted.located
    hadmitted.admissible
  have hlen := length_installWrites st.volKey a.slot a.pkg a.lba
  obtain ⟨-, after, stopped, ⟨-, hlog⟩, hstopped, hfirst, hresult⟩ | ⟨hcalls, written, hmade, hresult⟩ :=
    houtcome
  · rw [hresult, madeWrites_eq hlog, List.take_take]
    refine ⟨min count stopped, ?_, Nat.min_le_left _ _, hlast, rfl⟩
    rw [← hfirst]
    omega
  · obtain ⟨records, -, hrecords, haudit⟩ := auditRaw_wroteIn w
      { st with workspace := out, apps := storedApps st a.slot a.pkg, cachedApp := none } written
      ((ascii "app-install " ++ a.pkg.label).take 38)
    rw [hresult]
    dsimp only
    rw [hmade.2, List.append_assoc] at hrecords
    rw [madeWrites_eq hrecords, List.take_append, applyWrites_append, List.take_eq_take_min]
    refine ⟨min count (installWrites st.volKey a.slot a.pkg a.lba).length, ?_, Nat.min_le_left _ _,
      ?_, ?_⟩
    · have hstarted : w.write d.writes = none := hcalls 0 (by unfold installCalls; omega)
      rw [or_iff_left (World.not_lost_of_none hstarted)]
      omega
    · rw [List.mem_append, hlast]
      refine or_iff_left fun hrecord => ?_
      exact not_audit_of_appOwns (appOwns_header hadmitted.located)
        (haudit _ (List.mem_of_mem_take hrecord))
    · funext slot
      refine storedApp_congr fun lba howns => applyWrites_of_untouched _ _ _ fun entry hentry heq => ?_
      exact not_audit_of_appOwns howns (heq ▸ haudit entry (List.mem_of_mem_take hentry))

/-- The map of slots after a cut of an admitted request. -/
theorem storedApp_installCut (admitted : admission w st d = some a) (count : Nat) :
    storedApp (installCut w st d count) st.volKey st.pubkey =
      if count = 0 ∨ w.Lost d.writes then storedApp d.disk st.volKey st.pubkey
      else Function.update (storedApp d.disk st.volKey st.pubkey) a.slot
        (if (a.lba, storedHeader st.volKey a.slot a.pkg) ∈
            (madeWrites d (handle w st installRequest d).2.2).take count then
          some (storedView a.slot a.pkg, a.pkg.payload)
        else none) := by
  obtain ⟨made, hzero, -, hheader, hstored⟩ := installCut_stored admitted count
  have hadmitted := Admitted.of_admission admitted
  rw [hstored, storedApp_install hadmitted.located hadmitted.admissible]
  refine if_congr hzero rfl (congrArg _ ?_)
  rw [if_congr hheader rfl rfl]
  by_cases hcut : made < (installWrites st.volKey a.slot a.pkg a.lba).length
  · rw [if_pos hcut, if_neg (by omega)]
  · rw [if_neg hcut, if_pos (by omega)]

end Cut

/-! ### Crash safety -/

/-- What the target slot of a request holds is stored elsewhere as well, or is not the best
stored version of its name; or nothing is written. -/
def InstallKeeps (w : World) (st : State) (d : Dev) : Prop :=
  ∀ a, admission w st d = some a → ¬ w.Lost d.writes →
    ∀ label version payload, Stores d.disk st.volKey st.pubkey a.slot label version payload →
      ∃ slot, slot ≠ a.slot ∧ ∃ version' payload',
        Stores d.disk st.volKey st.pubkey slot label version' payload' ∧
          (version < version' ∨ version' = version ∧ payload' = payload)

section Safety

variable {w : World} {st : State} {d : Dev}

theorem Stores.congr {disk disk' : Disk} {key pubkey : Bytes 32} {label : List UInt8}
    {version : UInt64}
    (same : storedApp disk' key pubkey slot = storedApp disk key pubkey slot) :
    Stores disk' key pubkey slot label version payload ↔
      Stores disk key pubkey slot label version payload := by
  unfold Stores
  rw [same]

/-- A slot stores one version of one name. -/
theorem Stores.unique {disk : Disk} {key pubkey : Bytes 32} {label label' : List UInt8}
    {version version' : UInt64} {payload payload' : List UInt8}
    (h : Stores disk key pubkey slot label version payload)
    (h' : Stores disk key pubkey slot label' version' payload') :
    label = label' ∧ version = version' ∧ payload = payload' := by
  obtain ⟨view, hstored, rfl, rfl⟩ := h
  obtain ⟨view', hstored', rfl, rfl⟩ := h'
  rw [hstored] at hstored'
  cases hstored'
  exact ⟨rfl, rfl, rfl⟩

/-- Beside its slot a cut changes nothing. -/
theorem stores_installCut_other (admitted : admission w st d = some a)
    (other : slot ≠ a.slot) (count : Nat) {label : List UInt8} {version : UInt64} :
    Stores (installCut w st d count) st.volKey st.pubkey slot label version payload ↔
      Stores d.disk st.volKey st.pubkey slot label version payload := by
  refine Stores.congr ?_
  rw [storedApp_installCut admitted]
  split_ifs
  · rfl
  · exact Function.update_of_ne other ..
  · exact Function.update_of_ne other ..

/-- After the first write the target slot is empty. -/
theorem storedApp_installCut_one (admitted : admission w st d = some a)
    (started : ¬ w.Lost d.writes) :
    storedApp (installCut w st d 1) st.volKey st.pubkey =
      Function.update (storedApp d.disk st.volKey st.pubkey) a.slot none := by
  obtain ⟨made, -, hmade, hheader, -⟩ := installCut_stored admitted 1
  have hlen := length_installWrites st.volKey a.slot a.pkg a.lba
  have hcut : (a.lba, storedHeader st.volKey a.slot a.pkg) ∉
      (madeWrites d (handle w st installRequest d).2.2).take 1 := by
    rw [hheader]
    omega
  rw [storedApp_installCut admitted, if_neg (by simp [started]), if_neg hcut]

/-- The best versions survive every cut under the condition. -/
theorem InstallKeeps.finds {later : World} (reads : later.ReadsSucceed) (keeps : InstallKeeps w st d)
    {count : Nat} {label : List UInt8} {version : UInt64} {payload : List UInt8}
    (best : FindsBest later st d.disk label version payload) :
    Finds later st (installCut w st d count) label version payload := by
  obtain ⟨hfinds, hmax⟩ := best
  cases hadmission : admission w st d with
  | none =>
      rw [installCut_refused hadmission]
      exact hfinds
  | some a =>
      rw [finds_iff reads] at hfinds ⊢
      obtain ⟨slot, hstores⟩ := hfinds
      by_cases hslot : slot = a.slot
      · subst hslot
        by_cases hidle : count = 0 ∨ w.Lost d.writes
        · refine ⟨a.slot, (Stores.congr ?_).mpr hstores⟩
          rw [storedApp_installCut hadmission, if_pos hidle]
        · push Not at hidle
          obtain ⟨other, hother, version', payload', hcopy, hlater⟩ :=
            keeps a hadmission hidle.2 label version payload hstores
          rcases hlater with hlater | ⟨rfl, rfl⟩
          · have hle := hmax version' payload' ((finds_iff reads).mpr ⟨other, hcopy⟩)
            exact absurd hle (UInt64.not_le.mpr hlater)
          · exact ⟨other, (stores_installCut_other hadmission hother count).mpr hcopy⟩
      · exact ⟨slot, (stores_installCut_other hadmission hslot count).mpr hstores⟩

/-- What survives the first write is not only in the target slot. -/
theorem installKeeps_of_finds {later : World} (reads : later.ReadsSucceed)
    (safe : ∀ label version payload, FindsBest later st d.disk label version payload →
      Finds later st (installCut w st d 1) label version payload) : InstallKeeps w st d := by
  intro a hadmission hwrite label version payload hstores
  by_contra hnone
  have hbest : FindsBest later st d.disk label version payload := by
    refine ⟨(finds_iff reads).mpr ⟨a.slot, hstores⟩, fun version' payload' hfinds => ?_⟩
    obtain ⟨slot, hslot⟩ := (finds_iff reads).mp hfinds
    by_contra hlater
    rw [UInt64.not_le] at hlater
    refine hnone ⟨slot, ?_, version', payload', hslot, .inl hlater⟩
    rintro rfl
    obtain ⟨-, rfl, -⟩ := hslot.unique hstores
    exact UInt64.lt_irrefl _ hlater
  obtain ⟨slot, hslot⟩ := (finds_iff reads).mp (safe label version payload hbest)
  by_cases hsame : slot = a.slot
  · subst hsame
    obtain ⟨view, hstored, -⟩ := hslot
    rw [storedApp_installCut_one hadmission hwrite, Function.update_self] at hstored
    cases hstored
  · rw [stores_installCut_other hadmission hsame] at hslot
    exact hnone ⟨slot, hsame, version, payload, hslot, .inr ⟨rfl, rfl⟩⟩

/-- The new version is found once its header was written, with the admitted payload. -/
theorem finds_new_iff {later : World} (reads : later.ReadsSucceed) (listed : ListsStored st d.disk)
    (admitted : admission w st d = some a) {count : Nat} :
    Finds later st (installCut w st d count) a.pkg.label a.pkg.version payload ↔
      (a.lba, storedHeader st.volKey a.slot a.pkg) ∈
          (madeWrites d (handle w st installRequest d).2.2).take count ∧
        payload = a.pkg.payload := by
  have hnew : ∀ slot payload, ¬ Stores d.disk st.volKey st.pubkey slot a.pkg.label a.pkg.version
      payload := by
    rintro slot payload ⟨view, hstored, hlabel, hversion⟩
    obtain ⟨entry, hentry, rfl⟩ := listed slot view payload hstored
    obtain ⟨best, hbest, hle⟩ := bestApp_max hentry hlabel
    have hlt := (Admitted.of_admission admitted).newer best hbest
    rw [← hversion] at hlt
    exact absurd hle (UInt64.not_le.mpr hlt)
  have hmap := storedApp_installCut admitted count
  rw [finds_iff reads]
  constructor
  · rintro ⟨slot, hslot⟩
    by_cases hother : slot = a.slot
    · subst hother
      by_cases hidle : count = 0 ∨ w.Lost d.writes
      · rw [if_pos hidle] at hmap
        exact absurd ((Stores.congr (congrFun hmap _)).mp hslot) (hnew _ _)
      · rw [if_neg hidle] at hmap
        obtain ⟨view, hstored, -⟩ := hslot
        rw [hmap, Function.update_self] at hstored
        split_ifs at hstored with hheader
        cases hstored
        exact ⟨hheader, rfl⟩
    · exact absurd ((stores_installCut_other admitted hother count).mp hslot) (hnew _ _)
  · rintro ⟨hheader, rfl⟩
    obtain ⟨made, hzero, -, hlast, -⟩ := installCut_stored admitted count
    have hlen := length_installWrites st.volKey a.slot a.pkg a.lba
    have hmade : made ≠ 0 := by
      have hall := hlast.mp hheader
      omega
    refine ⟨a.slot, storedView a.slot a.pkg, ?_, rfl, rfl⟩
    rw [hmap, if_neg fun h => hmade (hzero.mpr h), Function.update_self, if_pos hheader]

/-- Whenever power is lost during an installation request, a load still finds the best
version of every name with its payload exactly under the condition on the target slot,
and it finds the new version with the staged payload exactly when its header was
written. -/
theorem install_crash_safe (w : World) (honest : w.HonestReads) (st : State) (d : Dev)
    (listed : ListsStored st d.disk) (later : World) (reads : later.ReadsSucceed) :
    ((∀ count label version payload, FindsBest later st d.disk label version payload →
        Finds later st (installCut w st d count) label version payload) ↔ InstallKeeps w st d) ∧
    ∀ a, admission w st d = some a → stagedPackage d.disk = some a.pkg ∧
      ∀ count payload, Finds later st (installCut w st d count) a.pkg.label a.pkg.version payload ↔
        (a.lba, storedHeader st.volKey a.slot a.pkg) ∈
            (madeWrites d (handle w st installRequest d).2.2).take count ∧
          payload = a.pkg.payload := by
  refine ⟨⟨fun safe => installKeeps_of_finds reads (safe 1), ?_⟩, fun a hadmission => ?_⟩
  · intro keeps count label version payload hbest
    exact keeps.finds reads hbest
  · exact ⟨admission_staged honest hadmission, fun count payload => finds_new_iff reads listed hadmission⟩

end Safety

/-- With two versions on the disk a third one goes to the slot of the older one, and the
best version stays. -/
theorem install_crash_safe_pair : ∃ st d,
    boot World.faultless true samplePublic (Dev.fresh stagedPair) = (st, d) ∧
      ∀ count label version payload, FindsBest World.faultless st d.disk label version payload →
        Finds World.faultless st (installCut World.faultless st d count) label version payload := by
  obtain ⟨st, d, first, second, hboot, hwrote, hrunning, hkey, happs, hfirst, hsecond, hstored⟩ :=
    pair_boot stagedPair_prepared
  rw [← hkey, ← hrunning.pinned] at hstored
  have hlisted : ListsStored st d.disk := by
    intro slot view payload hfound
    rw [hstored] at hfound
    by_cases hzero : slot = 0
    · subst hzero
      cases hfound
      exact ⟨first, by rw [happs]; simp, hfirst⟩
    · by_cases hone : slot = 1
      · subst hone
        cases hfound
        exact ⟨second, by rw [happs]; simp, hsecond⟩
      · rw [pairStored, Function.update_of_ne hzero, Function.update_of_ne hone] at hfound
        cases hfound
  refine ⟨st, d, hboot, (install_crash_safe World.faultless World.faultless_reads.1 st d hlisted
    World.faultless World.faultless_reads).1.mpr ?_⟩
  intro a hadmission _ label version payload hstores
  have hstaged := admission_staged World.faultless_reads.1 hadmission
  rw [stagedPackage_pair hwrote] at hstaged
  have htarget := (Admitted.of_admission hadmission).target
  rw [← Option.some.inj hstaged, demoFour_label, targetAppSlot_pair happs hfirst hsecond] at htarget
  rw [← Option.some.inj htarget] at hstores ⊢
  obtain ⟨view, hslot, rfl, rfl⟩ := hstores
  rw [hstored] at hslot
  cases hslot
  have hsame : demoThree.label = demoTwo.label := by rw [demoThree_label, demoTwo_label]
  have hthree : storedApp d.disk st.volKey st.pubkey 0 = some (storedView 0 demoThree, [3]) := by
    rw [hstored, pairStored, Function.update_self]
  exact ⟨0, by decide, 3, [3], ⟨storedView 0 demoThree, hthree, hsame, rfl⟩, .inl (by decide)⟩

/-! ### An application that is lost -/

/-- Entries of different names do not share a pair of slots. -/
def PairedByName (st : State) : Prop :=
  ∀ entry ∈ st.apps, ∀ other ∈ st.apps, entry.slot.toNat / 2 = other.slot.toNat / 2 →
    entry.label = other.label

/-- Only the second version is left after a removal that stopped halfway. -/
theorem storedApp_halfway {st : State} {d : Dev} {first second : AppEntry} (block : st.block = true)
    (listed : st.apps = [first, second]) (hfirst : first.view = storedView 0 demoThree)
    (hsecond : second.view = storedView 1 demoTwo) : ∃ after,
    (handle (writeFails (d.writes + 1)) st (removeRequest (ascii "demo")) d).2 = (st, after) ∧
      after.disk = applyWrites d.disk [(appStartLba, Bytes.zeros 512)] := by
  have hwrites := removeWrites_pair listed hfirst hsecond
  have htrim : trim (ascii "demo") = ascii "demo" := by decide
  have hstarted : (writeFails (d.writes + 1)).write d.writes = none := by simp [writeFails]
  rw [handle_removeRequest, htrim]
  obtain ⟨hnone, -⟩ | ⟨-, ⟨-, after, count, hmade, hstop, hzero, hresult⟩ | ⟨hall, -⟩⟩ :=
    @removeApp_cases (writeFails (d.writes + 1)) st d (ascii "demo")
  · have hempty := hnone (by decide) block
    rw [hwrites] at hempty
    cases hempty
  · rw [hwrites] at hstop hmade
    have hone : count = 1 := by
      have hsome : count ≠ 0 := fun h => World.not_lost_of_none hstarted (hzero.mp h)
      have hcount := hstop.kept (writeFails_keeps _)
      rw [List.length_cons, List.length_singleton] at hcount
      omega
    rw [hone] at hmade
    exact ⟨after, by rw [hresult], hmade.1⟩
  · rw [hwrites] at hall
    have hfailed := hall 1 (by decide)
    simp [writeFails] at hfailed

/-- What is left on the disk then. -/
def halfStored : UInt8 → Option (AppView × List UInt8) :=
  Function.update (fun _ => none) 1 (some (storedView 1 demoTwo, [2]))

theorem halfStored_eq_some {found : AppView × List UInt8} (h : halfStored slot = some found) :
    slot = 1 ∧ found = (storedView 1 demoTwo, [2]) := by
  by_cases hslot : slot = 1
  · rw [hslot, halfStored, Function.update_self] at h
    exact ⟨hslot, (Option.some.inj h).symm⟩
  · rw [halfStored, Function.update_of_ne hslot] at h
    cases h

/-- The state after the removal: both versions listed, one stored, and a package staged. -/
structure Halfway (st : State) (disk : Disk) (first second : AppEntry) : Prop where
  running : st.block = true ∧ st.recovery = false ∧ st.pubkey = samplePublic
  listed : st.apps = [first, second]
  first : first.view = storedView 0 demoThree
  second : second.view = storedView 1 demoTwo
  stored : storedApp disk st.volKey st.pubkey = halfStored
  staged : stagedPackage disk = some demoFour

theorem halfway_reached : ∃ st d after first second,
    boot World.faultless true samplePublic (Dev.fresh stagedPair) = (st, d) ∧
      (handle (writeFails (d.writes + 1)) st (removeRequest (ascii "demo")) d).2 = (st, after) ∧
      Halfway st after.disk first second := by
  obtain ⟨st, d, first, second, hboot, hwrote, hrunning, hkey, happs, hfirst, hsecond, hstored⟩ :=
    pair_boot stagedPair_prepared
  obtain ⟨after, hhalfway, hdisk⟩ := @storedApp_halfway st d first second hrunning.block happs hfirst
    hsecond
  refine ⟨st, d, after, first, second, hboot, hhalfway,
    ⟨hrunning.block, hrunning.recovery, hrunning.pinned⟩, happs, hfirst, hsecond, ?_, ?_⟩
  · rw [hdisk, hkey, hrunning.pinned, storedApp_clear (by decide : appSlotLba 0 = some appStartLba),
      hstored]
    funext slot
    by_cases hslot : slot = 0
    · rw [hslot]
      rfl
    · rw [Function.update_of_ne hslot, pairStored, Function.update_of_ne hslot, halfStored]
  · rw [← stagedPackage_pair hwrote, hdisk]
    refine stagedPackage_congr fun lba hlow => applyWrites_of_untouched _ _ _ fun entry hentry heq => ?_
    rw [List.mem_singleton.mp hentry] at heq
    unfold appStartLba at heq
    unfold stagingLba at hlow
    omega

section Halfway

variable {st : State} {d : Dev} {first second : AppEntry}

theorem Halfway.labels (h : Halfway st d.disk first second) :
    ∀ entry ∈ st.apps, entry.label = ascii "demo" := by
  have hfirst : first.label = ascii "demo" := (congrArg AppView.label h.first).trans demoThree_label
  have hsecond : second.label = ascii "demo" := (congrArg AppView.label h.second).trans demoTwo_label
  rw [h.listed]
  simp [hfirst, hsecond]

/-- The listed version 3 decides where the next one goes. -/
theorem Halfway.admits (h : Halfway st d.disk first second) : ∃ a,
    admission World.faultless st d = some a ∧ a.slot = 1 := by
  have hthree : first.version = 3 := congrArg AppView.version h.first
  have hbest := bestApp_pair h.listed h.first h.second
  obtain ⟨hblock, hrecovery, hpinned⟩ := h.running
  have hnewer : ∀ old, bestApp st demoFour.label = some old → old.version < demoFour.version := by
    intro old hold
    rw [demoFour_label, hbest] at hold
    cases hold
    rw [hthree]
    decide
  have htarget : targetAppSlot st demoFour.label = some 1 := by
    rw [demoFour_label, targetAppSlot_pair h.listed h.first h.second]
  have hadmissible : AppAdmissible st.pubkey demoFour := by
    rw [hpinned]
    exact samplePackages_admissible _ (by simp)
  obtain ⟨a, hadmission, -, hslotOne, -⟩ := @admission_of_staged World.faultless st d
    World.faultless_reads demoFour 1 (appStartLba + appSlotSectors) hblock hrecovery h.staged hadmissible
    hnewer htarget (by decide)
  exact ⟨a, hadmission, hslotOne⟩

end Halfway

/-- A removal stopped halfway, so the list still names version 3 as the best one.  The
next installation takes the slot of version 2, the only one left on the disk, and its
first write destroys it. -/
theorem installation_loses_app : ∃ st d,
    boot World.faultless true samplePublic (Dev.fresh stagedPair) = (st, d) ∧
      let halfway := (handle (writeFails (d.writes + 1)) st (removeRequest (ascii "demo")) d).2
      ListsStored halfway.1 halfway.2.disk ∧ PairedByName halfway.1 ∧
        FindsBest World.faultless halfway.1 halfway.2.disk (ascii "demo") 2 [2] ∧
        ¬ Finds World.faultless halfway.1 (installCut World.faultless halfway.1 halfway.2 1)
          (ascii "demo") 2 [2] := by
  obtain ⟨st, d, after, first, second, hboot, hhalfway, h⟩ := halfway_reached
  refine ⟨st, d, hboot, ?_⟩
  rw [hhalfway]
  dsimp only
  refine ⟨?_, ?_, ⟨?_, ?_⟩, ?_⟩
  · intro slot view payload hslot
    rw [h.stored] at hslot
    obtain ⟨-, heq⟩ := halfStored_eq_some hslot
    cases heq
    exact ⟨second, by rw [h.listed]; simp, h.second⟩
  · intro entry hentry other hother _
    rw [h.labels entry hentry, h.labels other hother]
  · rw [finds_iff World.faultless_reads]
    exact ⟨1, storedView 1 demoTwo, by rw [h.stored, halfStored, Function.update_self],
      demoTwo_label, rfl⟩
  · intro version payload hfinds
    obtain ⟨slot, view, hslot, -, rfl⟩ := (finds_iff World.faultless_reads).mp hfinds
    rw [h.stored] at hslot
    obtain ⟨-, heq⟩ := halfStored_eq_some hslot
    cases heq
    decide
  · obtain ⟨a, hadmission, hslot⟩ := h.admits
    rw [finds_iff World.faultless_reads]
    rintro ⟨slot, view, hfound, -⟩
    rw [storedApp_installCut_one hadmission (World.not_lost_of_none rfl), hslot, h.stored] at hfound
    by_cases hone : slot = 1
    · rw [hone, Function.update_self] at hfound
      cases hfound
    · rw [Function.update_of_ne hone] at hfound
      exact hone (halfStored_eq_some hfound).1

end Redoubt.Storage
