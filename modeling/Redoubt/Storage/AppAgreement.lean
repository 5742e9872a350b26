import Redoubt.Storage.AppStaging
import Redoubt.Storage.Regions

/-!
# The list of applications and the disk

The service keeps a list of the applications it found at mount time and corrects it at
the end of an installation or a removal.  Whether list and disk agree after a request
depends on the agreement before it and on the write that fails.
-/

namespace Redoubt.Storage

open Redoubt.Foundation Redoubt.Crypto

/-! ### Agreement after a request -/

theorem listedAt_eq (apps : List AppEntry) (slot : UInt8) :
    listedAt apps slot = (apps.filter (·.slot = slot)).map AppEntry.view := by
  rw [listedAt, List.filter_map]
  rfl

theorem listedAt_storedApps (st : State) (slot other : UInt8) (pkg : AppPackage) :
    listedAt (storedApps st slot pkg) other =
      if other = slot then [storedView slot pkg] else listedAt st.apps other := by
  rw [listedAt_eq, listedAt_eq, storedApps, List.filter_append, List.filter_filter, List.map_append]
  split_ifs with hother
  · rw [hother]
    have hnone : st.apps.filter (fun entry => decide (entry.slot = slot) && decide (entry.slot ≠ slot)) =
        [] := by
      rw [List.filter_eq_nil_iff]
      simp
    rw [hnone]
    simp [storedEntry, ← storedEntry_view]
  · have hsame : st.apps.filter (fun entry => decide (entry.slot = other) && decide (entry.slot ≠ slot)) =
        st.apps.filter (·.slot = other) := by
      refine List.filter_congr fun entry _ => ?_
      by_cases hslot : entry.slot = other
      · simp [hslot, hother]
      · simp [hslot]
    rw [hsame]
    have hnew : (storedEntry slot pkg).slot ≠ other := fun h => hother h.symm
    simp [hnew]

theorem listedAt_eq_nil {apps : List AppEntry} {slot : UInt8} :
    listedAt apps slot = [] ↔ ∀ entry ∈ apps, entry.slot ≠ slot := by
  simp [listedAt, List.filter_eq_nil_iff, AppEntry.view]

/-- When list and disk agree after an installation request: the agreement before it is
kept by a request that writes nothing.  One that writes must agree beside its slot and,
unless all of its writes succeed, must find the slot unlisted. -/
def InstallAgrees (w : World) (st : State) (d : Dev) : Prop :=
  match admission w st d with
  | none => Agrees st d.disk
  | some a =>
      if w.write d.writes = none then
        (∀ slot, slot ≠ a.slot → AgreesAt st d.disk slot) ∧
          (w.WritesOk d.writes (installCalls a.pkg) ∨ ∀ entry ∈ st.apps, entry.slot ≠ a.slot)
      else Agrees st d.disk

/-- The same for a removal request: one that writes must succeed with all of its writes,
agree on the slots it does not clear, and clear no slot that is listed under another
name. -/
def RemoveAgrees (w : World) (st : State) (name : List UInt8) (d : Dev) : Prop :=
  if appNameValid name = true ∧ st.block = true ∧ removeWrites st name ≠ [] ∧ w.write d.writes = none then
    w.WritesOk d.writes (removeWrites st name).length ∧
      ∀ slot, if ∃ entry ∈ st.apps, sameAppName entry name = true ∧ entry.slot = slot then
          ∀ entry ∈ st.apps, entry.slot = slot → sameAppName entry name = true
        else AgreesAt st d.disk slot
  else Agrees st d.disk

section Agreement

variable {w : World} {st : State} {d : Dev}

/-- Agreement only depends on the list, the keys and the map of slots. -/
theorem Agrees.congr_iff {st' : State} {disk disk' : Disk} (apps : st'.apps = st.apps)
    (key : st'.volKey = st.volKey) (pubkey : st'.pubkey = st.pubkey)
    (stored : storedApp disk' st.volKey st.pubkey = storedApp disk st.volKey st.pubkey) :
    Agrees st' disk' ↔ Agrees st disk := by
  unfold Agrees AgreesAt
  rw [apps, key, pubkey, stored]

/-- Agreement after the map changed at one slot. -/
theorem agrees_update_iff {st' : State} {disk disk' : Disk} {slot : UInt8}
    {found : Option (AppView × List UInt8)} (key : st'.volKey = st.volKey)
    (pubkey : st'.pubkey = st.pubkey)
    (listed : ∀ other, other ≠ slot → listedAt st'.apps other = listedAt st.apps other)
    (stored : storedApp disk' st.volKey st.pubkey =
      Function.update (storedApp disk st.volKey st.pubkey) slot found) :
    Agrees st' disk' ↔ (∀ other, other ≠ slot → AgreesAt st disk other) ∧
      listedAt st'.apps slot = (found.map (·.1)).toList := by
  have hbeside : ∀ other, other ≠ slot → (AgreesAt st' disk' other ↔ AgreesAt st disk other) := by
    intro other hother
    unfold AgreesAt
    rw [key, pubkey, stored, Function.update_of_ne hother, listed other hother]
  have hslot : AgreesAt st' disk' slot ↔ listedAt st'.apps slot = (found.map (·.1)).toList := by
    unfold AgreesAt
    rw [key, pubkey, stored, Function.update_self]
  rw [← hslot]
  constructor
  · intro h
    exact ⟨fun other hother => (hbeside other hother).mp (h other), h slot⟩
  · rintro ⟨hothers, hown⟩ other
    by_cases hother : other = slot
    · rw [hother]
      exact hown
    · exact (hbeside other hother).mpr (hothers other hother)

theorem agrees_auditRaw (text : List UInt8) :
    Agrees (auditRaw w st text d).1 (auditRaw w st text d).2.disk ↔ Agrees st d.disk := by
  obtain ⟨seq, prev, hstate⟩ := auditRaw_state w st d text
  rw [hstate]
  exact Agrees.congr_iff rfl rfl rfl (storedApp_wroteIn (auditRaw_wroteIn w st d text))

theorem installApp_agrees (keeps : w.FailuresKeep) :
    Agrees (installApp w st d).2.1 (installApp w st d).2.2.disk ↔ InstallAgrees w st d := by
  unfold InstallAgrees
  obtain ⟨hnone, reply, out, after, hresult, honly, -⟩ | ⟨a, out, hsome, hadmitted, houtcome⟩ :=
    @installApp_cases w st d
  · rw [hnone, hresult]
    exact Agrees.congr_iff rfl rfl rfl (by rw [honly.disk])
  · rw [hsome]
    dsimp only
    have hmap := @storedApp_install d.disk st.volKey st.pubkey a.slot a.lba a.pkg hadmitted.located
      hadmitted.admissible
    obtain ⟨hcalls, after, count, hmade, hstop, hfirst, hresult⟩ | ⟨hcalls, written, hmade, hresult⟩ :=
      houtcome
    · rw [keeps.lost_iff] at hfirst
      rw [hresult]
      by_cases hzero : count = 0
      · rw [if_neg (hfirst.mp hzero)]
        rw [hzero, List.take_zero] at hmade
        exact Agrees.congr_iff rfl rfl rfl (by rw [hmade.1, applyWrites_nil])
      · have hstored := hmap count
        rw [if_neg hzero, if_pos (hstop.kept keeps), ← hmade.1] at hstored
        rw [if_pos (not_not.mp fun h => hzero (hfirst.mpr h)), or_iff_right hcalls, ← listedAt_eq_nil]
        exact agrees_update_iff rfl rfl (fun _ _ => rfl) hstored
    · have hstarted : w.write d.writes = none := hcalls 0 (by unfold installCalls; omega)
      have hstored := hmap (installWrites st.volKey a.slot a.pkg a.lba).length
      rw [if_neg (by rw [length_installWrites]; omega), if_neg (Nat.lt_irrefl _), List.take_length,
        ← hmade.1] at hstored
      rw [hresult, if_pos hstarted, iff_true_intro (Or.inl hcalls), and_true]
      dsimp only
      rw [agrees_auditRaw]
      refine (@agrees_update_iff st { st with
        workspace := out, apps := storedApps st a.slot a.pkg, cachedApp := none } _ _ _ _ rfl rfl
          (fun other hother => ?_) hstored).trans (and_iff_left ?_)
      · exact (listedAt_storedApps ..).trans (if_neg hother)
      · exact (listedAt_storedApps ..).trans (if_pos rfl)

/-- What a removal clears: the slots listed under the name. -/
theorem mem_removeWrites {name : List UInt8} {lba : Nat} {slot : UInt8}
    (located : appSlotLba slot = some lba) :
    (lba, Bytes.zeros 512) ∈ removeWrites st name ↔
      ∃ entry ∈ st.apps, sameAppName entry name = true ∧ entry.slot = slot := by
  unfold removeWrites headerClears
  simp only [List.mem_filterMap, List.mem_filter, Option.map_eq_some_iff, Prod.mk.injEq, and_true]
  constructor
  · rintro ⟨entry, ⟨hentry, hname⟩, other, hother, rfl⟩
    exact ⟨entry, hentry, hname, appSlotLba_inj hother located⟩
  · rintro ⟨entry, hentry, hname, rfl⟩
    exact ⟨entry, ⟨hentry, hname⟩, lba, located, rfl⟩

theorem removeWrites_clears (name : List UInt8) : ∀ entry ∈ removeWrites st name, ClearsHeader entry := by
  intro entry hentry
  unfold removeWrites headerClears at hentry
  simp only [List.mem_filterMap, Option.map_eq_some_iff] at hentry
  obtain ⟨app, -, lba, hlba, rfl⟩ := hentry
  exact ⟨rfl, app.slot, hlba⟩

section RemovedMap

variable {disk : Disk} {key pubkey : Bytes 32}

/-- The map after a removal. -/
theorem storedApp_remove (name : List UInt8) (slot : UInt8) :
    storedApp (applyWrites disk (removeWrites st name)) key pubkey slot =
      if ∃ entry ∈ st.apps, sameAppName entry name = true ∧ entry.slot = slot then none
      else storedApp disk key pubkey slot := by
  rw [storedApp_clears (removeWrites_clears name)]
  cases hlba : appSlotLba slot with
  | none =>
      have hnone : storedApp disk key pubkey slot = none := by
        rw [← Option.not_isSome_iff_eq_none, Option.isSome_iff_exists]
        rintro ⟨found, hfound⟩
        obtain ⟨lba, hsome⟩ := storedApp_located hfound
        rw [hlba] at hsome
        cases hsome
      rw [hnone, ite_self, ite_self]
  | some lba =>
      refine if_congr ?_ rfl rfl
      rw [← mem_removeWrites hlba]
      constructor
      · rintro ⟨other, hother, hmem⟩
        cases hother
        exact hmem
      · exact fun hmem => ⟨lba, rfl, hmem⟩

/-- A removal that was cut short has cleared a slot of the name. -/
theorem storedApp_remove_cut {name : List UInt8} {count : Nat} (some : removeWrites st name ≠ [])
    (started : count ≠ 0) : ∃ entry ∈ st.apps, sameAppName entry name = true ∧
      storedApp (applyWrites disk ((removeWrites st name).take count)) key pubkey entry.slot = none := by
  obtain ⟨first, rest, hwrites⟩ := List.exists_cons_of_ne_nil some
  have htaken : first ∈ (removeWrites st name).take count := by
    obtain ⟨more, rfl⟩ := Nat.exists_eq_succ_of_ne_zero started
    rw [hwrites, List.take_succ_cons]
    exact List.mem_cons_self
  have hmem := List.mem_of_mem_take htaken
  obtain ⟨hzeros, slot, hslot⟩ := removeWrites_clears name first hmem
  have hfirst : first = (first.1, Bytes.zeros 512) := Prod.ext rfl hzeros
  rw [hfirst] at htaken hmem
  obtain ⟨entry, hentry, hname, rfl⟩ := (mem_removeWrites hslot).mp hmem
  refine ⟨entry, hentry, hname, ?_⟩
  rw [storedApp_clears fun write hwrite => removeWrites_clears name write (List.mem_of_mem_take hwrite)]
  exact if_pos ⟨first.1, hslot, htaken⟩

end RemovedMap

theorem listedAt_filter_other (name : List UInt8) {slot : UInt8}
    (unlisted : ¬ ∃ entry ∈ st.apps, sameAppName entry name = true ∧ entry.slot = slot) :
    listedAt (st.apps.filter (!sameAppName · name)) slot = listedAt st.apps slot := by
  rw [listedAt_eq, listedAt_eq, List.filter_filter]
  refine congrArg (List.map _) (List.filter_congr fun entry hentry => ?_)
  by_cases hslot : entry.slot = slot
  · have hother : sameAppName entry name = false :=
      Bool.eq_false_iff.mpr fun hsame => unlisted ⟨entry, hentry, hsame, hslot⟩
    simp [hslot, hother]
  · simp [hslot]

theorem removeApp_agrees (keeps : w.FailuresKeep) (name : List UInt8) :
    Agrees (removeApp w st name d).2.1 (removeApp w st name d).2.2.disk ↔ RemoveAgrees w st name d := by
  unfold RemoveAgrees
  obtain ⟨hrefused, reply, after, hresult, hmade, -⟩ | ⟨⟨hname, hblock, hsome⟩, houtcome⟩ :=
    @removeApp_cases w st d name
  · rw [hresult, if_neg fun h => h.2.2.1 (hrefused h.1 h.2.1)]
    exact Agrees.congr_iff rfl rfl rfl (by rw [hmade.1, applyWrites_nil])
  · obtain ⟨hcalls, after, count, hmade, -, hfirst, hresult⟩ | ⟨hcalls, written, hmade, hresult⟩ :=
      houtcome
    · rw [keeps.lost_iff] at hfirst
      rw [hresult]
      by_cases hzero : count = 0
      · rw [if_neg fun h => hfirst.mp hzero h.2.2.2]
        rw [hzero, List.take_zero] at hmade
        exact Agrees.congr_iff rfl rfl rfl (by rw [hmade.1, applyWrites_nil])
      · -- a header is gone, its entry is still listed
        rw [if_pos ⟨hname, hblock, hsome, not_not.mp fun h => hzero (hfirst.mpr h)⟩]
        refine iff_of_false (fun hagrees => ?_) fun h => hcalls h.1
        obtain ⟨entry, hentry, -, hcleared⟩ :=
          @storedApp_remove_cut st d.disk st.volKey st.pubkey name count hsome hzero
        have hat := hagrees entry.slot
        unfold AgreesAt at hat
        dsimp only at hat
        rw [hmade.1, hcleared] at hat
        exact listedAt_eq_nil.mp hat entry hentry rfl
    · have hstarted : w.write d.writes = none := hcalls 0 (List.length_pos_iff.mpr hsome)
      rw [hresult, if_pos ⟨hname, hblock, hsome, hstarted⟩, and_iff_right hcalls]
      dsimp only
      rw [agrees_auditRaw]
      refine forall_congr' fun slot => ?_
      unfold AgreesAt
      dsimp only
      rw [hmade.1, storedApp_remove]
      by_cases hlisted : ∃ entry ∈ st.apps, sameAppName entry name = true ∧ entry.slot = slot
      · rw [if_pos hlisted, if_pos hlisted]
        refine listedAt_eq_nil.trans ?_
        simp only [List.mem_filter, Bool.not_eq_true', and_imp]
        refine forall_congr' fun entry => forall_congr' fun hentry => ?_
        cases sameAppName entry name <;> simp
      · rw [if_neg hlisted, if_neg hlisted, listedAt_filter_other name hlisted]

/-- After an installation or removal request in which a failed write leaves its last sector
unchanged, the list has the entries that a load finds on the disk exactly under the
conditions above. -/
theorem apps_match_disk (w : World) (keeps : w.FailuresKeep) (st : State) (d : Dev) (later : World)
    (reads : later.ReadsSucceed) :
    (let after := (handle w st installRequest d).2;
      SameEntries after.1.apps (loadApps later after.1 after.2).1.apps ↔ InstallAgrees w st d) ∧
    ∀ name, let after := (handle w st (removeRequest name) d).2;
      SameEntries after.1.apps (loadApps later after.1 after.2).1.apps ↔
        RemoveAgrees w st (trim name) d := by
  refine ⟨?_, fun name => ?_⟩
  · dsimp only
    rw [handle_installRequest, loadApps_succeed reads, ← agrees_iff_sameEntries, installApp_agrees keeps]
  · dsimp only
    rw [handle_removeRequest, loadApps_succeed reads, ← agrees_iff_sameEntries, removeApp_agrees keeps]

end Agreement

/-! ### A removal that succeeds, and one that stops halfway -/

/-- Version 3 in the first slot of a pair and version 2 in the second, as three
installations in a row leave them. -/
def pairVolume : Disk := holding (holding sampleVolume 1 demoTwo) 0 demoThree

/-- What the slots of this volume hold. -/
def pairStored : UInt8 → Option (AppView × List UInt8) :=
  Function.update (Function.update (fun _ => none) 1 (some (storedView 1 demoTwo, [2]))) 0
    (some (storedView 0 demoThree, [3]))

theorem pairVolume_prepared : Prepared pairVolume pairStored :=
  (sampleVolume_prepared.holding (by decide) (samplePackages_admissible _ (by simp))).holding (by decide)
    (samplePackages_admissible _ (by simp))

/-- The service on such a volume lists both. -/
theorem pair_boot {disk : Disk} (prepared : Prepared disk pairStored) : ∃ st d first second,
    boot World.faultless true samplePublic (Dev.fresh disk) = (st, d) ∧
      (Dev.fresh disk).WroteIn AuditSector d ∧ Running samplePublic d.disk st ∧ st.volKey = sampleKey ∧
      st.apps = [first, second] ∧ first.view = storedView 0 demoThree ∧
      second.view = storedView 1 demoTwo ∧ storedApp d.disk sampleKey samplePublic = pairStored := by
  obtain ⟨st, d, hboot, hwrote, hrunning, hkey, happs, -, hstored⟩ := prepared.boot
  have hviews := map_view_appsOnDisk d.disk sampleKey samplePublic
  rw [hstored, ← happs] at hviews
  have hlist : st.apps.map AppEntry.view = [storedView 0 demoThree, storedView 1 demoTwo] := hviews
  rw [List.map_eq_cons_iff] at hlist
  obtain ⟨first, rest, hrest, hfirst, hsecond⟩ := hlist
  rw [List.map_eq_singleton_iff] at hsecond
  obtain ⟨second, rfl, hsecond⟩ := hsecond
  exact ⟨st, d, first, second, hboot, hwrote, hrunning, hkey, hrest, hfirst, hsecond, hstored⟩

theorem removeWrites_pair {st : State} {first second : AppEntry} (listed : st.apps = [first, second])
    (hfirst : first.view = storedView 0 demoThree) (hsecond : second.view = storedView 1 demoTwo) :
    removeWrites st (ascii "demo") =
      [(appStartLba, Bytes.zeros 512), (appStartLba + appSlotSectors, Bytes.zeros 512)] := by
  have hlabel : first.label = ascii "demo" := (congrArg AppView.label hfirst).trans demoThree_label
  have hlabel' : second.label = ascii "demo" := (congrArg AppView.label hsecond).trans demoTwo_label
  have hslot : first.slot = 0 := congrArg AppView.slot hfirst
  have hslot' : second.slot = 1 := congrArg AppView.slot hsecond
  have hlba : appSlotLba first.slot = some appStartLba := by rw [hslot]; decide
  have hlba' : appSlotLba second.slot = some (appStartLba + appSlotSectors) := by rw [hslot']; decide
  simp [removeWrites, headerClears, listed, sameAppName_iff, hlabel, hlabel', hlba, hlba']

/-- The listed version 3 is the best one, so the next one goes to the slot of version 2. -/
theorem bestApp_pair {st : State} {first second : AppEntry} (listed : st.apps = [first, second])
    (hfirst : first.view = storedView 0 demoThree) (hsecond : second.view = storedView 1 demoTwo) :
    bestApp st (ascii "demo") = some first := by
  have hlabel : first.label = ascii "demo" := (congrArg AppView.label hfirst).trans demoThree_label
  obtain ⟨best, hbest, hle⟩ := @bestApp_max st (ascii "demo") first (by rw [listed]; simp) hlabel
  have hmem := (bestApp_mem hbest).1
  rw [listed, List.mem_cons, List.mem_singleton] at hmem
  rcases hmem with rfl | rfl
  · exact hbest
  · have hthree : first.version = 3 := congrArg AppView.version hfirst
    have htwo : best.version = 2 := congrArg AppView.version hsecond
    rw [hthree, htwo] at hle
    exact absurd hle (by decide)

theorem targetAppSlot_pair {st : State} {first second : AppEntry} (listed : st.apps = [first, second])
    (hfirst : first.view = storedView 0 demoThree) (hsecond : second.view = storedView 1 demoTwo) :
    targetAppSlot st (ascii "demo") = some 1 := by
  have hslot : first.slot = 0 := congrArg AppView.slot hfirst
  rw [targetAppSlot, bestApp_pair listed hfirst hsecond]
  dsimp only
  rw [hslot]
  decide

/-- The volume with two versions and a third one staged. -/
def stagedPair : Disk := staging pairVolume (stageSector demoFour)

theorem stagedPair_prepared : Prepared stagedPair pairStored := pairVolume_prepared.staging _

theorem stagedPackage_pair {d : Dev} (wrote : (Dev.fresh stagedPair).WroteIn AuditSector d) :
    stagedPackage d.disk = some demoFour := by
  rw [← stagedPackage_sample pairVolume demoFour (by simp)]
  refine stagedPackage_congr fun lba hlow => wrote.disk_eq ?_
  unfold AuditSector auditEndLba
  unfold stagingLba at hlow
  omega

/-- Both versions are removed from the list and from the disk. -/
theorem apps_match_disk_pair : ∃ st d,
    boot World.faultless true samplePublic (Dev.fresh pairVolume) = (st, d) ∧ st.apps.length = 2 ∧
      let after := (handle World.faultless st (removeRequest (ascii "demo")) d).2
      SameEntries after.1.apps (loadApps World.faultless after.1 after.2).1.apps := by
  obtain ⟨st, d, first, second, hboot, -, hrunning, hkey, happs, hfirst, hsecond, hstored⟩ :=
    pair_boot pairVolume_prepared
  have hwrites := removeWrites_pair happs hfirst hsecond
  refine ⟨st, d, hboot, by rw [happs]; rfl, ?_⟩
  refine ((apps_match_disk World.faultless World.faultless_writes.failuresKeep st d World.faultless
    World.faultless_reads).2 (ascii "demo")).mpr ?_
  have htrim : trim (ascii "demo") = ascii "demo" := by decide
  rw [htrim, RemoveAgrees, hwrites, if_pos ⟨by decide, hrunning.block, List.cons_ne_nil _ _, rfl⟩]
  refine ⟨fun _ _ => rfl, fun slot => ?_⟩
  have hdemo : ∀ entry ∈ st.apps, sameAppName entry (ascii "demo") = true := by
    intro entry hentry
    rw [happs, List.mem_cons, List.mem_singleton] at hentry
    rw [sameAppName_iff]
    rcases hentry with rfl | rfl
    · exact (congrArg AppView.label hfirst).trans demoThree_label
    · exact (congrArg AppView.label hsecond).trans demoTwo_label
  split_ifs with hlisted
  · exact fun entry hentry _ => hdemo entry hentry
  · -- no listed slot is left over
    have hother : ∀ entry ∈ st.apps, entry.slot ≠ slot :=
      fun entry hentry hslot => hlisted ⟨entry, hentry, hdemo entry hentry, hslot⟩
    have hzero : slot ≠ 0 := fun h => hother first (by rw [happs]; simp)
      ((congrArg AppView.slot hfirst).trans h.symm)
    have hone : slot ≠ 1 := fun h => hother second (by rw [happs]; simp)
      ((congrArg AppView.slot hsecond).trans h.symm)
    have hnone : storedApp d.disk st.volKey st.pubkey slot = none := by
      rw [hkey, hrunning.pinned, hstored, pairStored, Function.update_of_ne hzero,
        Function.update_of_ne hone]
    rw [AgreesAt, hnone]
    exact listedAt_eq_nil.mpr hother

/-- Surroundings in which one write fails and leaves its sectors. -/
def writeFails (call : Nat) : World :=
  { World.faultless with write := fun n => if n = call then some (.short 0) else none }

theorem writeFails_keeps (call : Nat) : (writeFails call).FailuresKeep := by
  intro n
  unfold writeFails
  dsimp only
  split_ifs <;> simp

/-- The second header write of a removal fails: version 3 is gone from the disk and still
listed. -/
theorem removal_stops_halfway : ∃ st d,
    boot World.faultless true samplePublic (Dev.fresh pairVolume) = (st, d) ∧
      let after := (handle (writeFails (d.writes + 1)) st (removeRequest (ascii "demo")) d).2
      ¬ SameEntries after.1.apps (loadApps World.faultless after.1 after.2).1.apps := by
  obtain ⟨st, d, first, second, hboot, -, hrunning, hkey, happs, hfirst, hsecond, -⟩ :=
    pair_boot pairVolume_prepared
  have hwrites := removeWrites_pair happs hfirst hsecond
  refine ⟨st, d, hboot, ?_⟩
  have htrim : trim (ascii "demo") = ascii "demo" := by decide
  dsimp only
  rw [handle_removeRequest, loadApps_succeed World.faultless_reads, ← agrees_iff_sameEntries,
    removeApp_agrees (writeFails_keeps _), htrim]
  unfold RemoveAgrees
  rw [hwrites, if_pos ⟨by decide, hrunning.block, List.cons_ne_nil _ _, by simp [writeFails]⟩]
  intro hall
  have hfailed := hall.1 1 (by decide)
  simp [writeFails] at hfailed

end Redoubt.Storage
