import Redoubt.Storage.AppAgreement
import Redoubt.Storage.AuditRuns
import Redoubt.Storage.FailClosed

/-!
# What the service answers from, along its runs

Over every run, with any reads, failing writes and power losses, the service answers from
signed content only, and an application that was removed stays removed until one is
installed.
-/

namespace Redoubt.Storage

open Redoubt.Foundation Redoubt.Crypto

section Requests

variable {w : World} {st : State} {d : Dev}

/-! ### Signed content -/

/-- The compiled-in system in recovery, else a signed payload and what follows from it. -/
def SystemView.Signed (pubkey : Bytes 32) (sys : SystemView) : Prop :=
  sys.pubkey = pubkey ∧
    (sys.recovery = true ∧ sys.payload = factoryPayload ∧ sys.roster = parseRoster factoryPayload ∧
        sys.deviceId = (findKv factoryPayload (ascii "device-id")).getD (ascii "redoubt-device") ∨
      sys.recovery = false ∧ (∃ sig, Ed25519.accepts pubkey sys.payload sig = true) ∧
        sys.roster = parseRoster sys.payload ∧
        sys.deviceId = (findKv sys.payload (ascii "device-id")).getD (ascii "?"))

structure Vouched (pubkey : Bytes 32) (st : State) : Prop where
  system : st.system.Signed pubkey
  closed : st.recovery = true → st.apps = []
  listed : ∀ entry ∈ st.apps, entry.Signed pubkey

variable {pubkey : Bytes 32}

theorem vouched_boot : Vouched pubkey (boot w true pubkey d).1 := by
  obtain ⟨⟨key, hsystem⟩, happs⟩ | hservice := boot_cases w true pubkey d
  · refine ⟨?_, fun _ => happs, by simp [happs]⟩
    rw [hsystem]
    exact ⟨rfl, .inl ⟨rfl, rfl, rfl, rfl⟩⟩
  · have hmode := hservice.recovery
    obtain ⟨key, slot, gen, payload, before, hseen, hsystem, hentries⟩ := hservice
    obtain ⟨hdrSec, hdr, ct, hok⟩ := slotAccepted_of_seen hseen
    refine ⟨?_, fun h => by simp [hmode] at h, fun entry hentry => ?_⟩
    · rw [hsystem]
      exact ⟨rfl, .inr ⟨rfl, ⟨hdr.signature, hok.signed⟩, rfl, rfl⟩⟩
    · obtain ⟨appSlot, load, bytes, hload⟩ := hentries entry hentry
      obtain ⟨appSec, app, ct, haccepted, rfl⟩ := appAccepted_of_seen hload
      exact ⟨haccepted.named, haccepted.signed⟩

theorem Vouched.request (h : Vouched pubkey st) (req : Request) :
    Vouched pubkey (handle w st req d).2.1 := by
  obtain ⟨⟨active, generation, hsystem⟩, -, happs⟩ := @handle_leaves w st d req
  have hmode := @handle_recovery w st d req
  refine ⟨?_, fun hrec => ?_, fun entry hentry => ?_⟩
  · rw [hsystem]
    exact h.system
  · exact handle_apps st d (hmode ▸ hrec) (h.closed (hmode ▸ hrec))
  · have hpinned : st.pubkey = pubkey := h.system.1
    exact (happs entry hentry).elim (h.listed entry) fun hsigned => hpinned ▸ hsigned.2.2

/-- In every run, whatever the mounts read and wherever power is lost, a running service
has a signed payload or the compiled-in one, and lists only signed applications. -/
theorem served_content_signed {good : World → Power → Prop} {disk : Disk}
    (run : ServiceRun pubkey good (.off disk) (.on st d)) : Vouched pubkey st := by
  have hkept : ∀ power, ServiceRun pubkey good (.off disk) power →
      ∀ st d, power = .on st d → Vouched pubkey st := by
    intro power run
    induction run with
    | refl => exact fun st d h => by cases h
    | tail _ step ih =>
        obtain ⟨entries, step⟩ := step
        cases step with
        | boot w allowed =>
            rintro st d ⟨⟩
            exact vouched_boot
        | request w allowed req =>
            rintro st d ⟨⟩
            exact (ih _ _ rfl).request req
        | beside disk outside =>
            rintro st d ⟨⟩
            exact ih _ _ rfl
        | _ => exact fun st d h => by cases h
  exact hkept _ run st d rfl

/-- A mount of a volume with two versions of an application. -/
theorem served_content_signed_pair : ∃ st d,
    ServiceRun samplePublic (fun _ _ => True) (.off pairVolume) (.on st d) ∧ st.recovery = false ∧
      st.apps.length = 2 ∧ Vouched samplePublic st := by
  obtain ⟨st, d, first, second, hboot, -, hrunning, -, happs, -⟩ := pair_boot pairVolume_prepared
  have hrun : ServiceRun samplePublic (fun _ _ => True) (.off pairVolume)
      (.on (boot World.faultless true samplePublic (Dev.fresh pairVolume)).1
        (boot World.faultless true samplePublic (Dev.fresh pairVolume)).2) :=
    .single ⟨_, .boot World.faultless trivial⟩
  rw [hboot] at hrun
  exact ⟨st, d, hrun, hrunning.recovery, by rw [happs]; rfl, served_content_signed hrun⟩

/-! ### Removed applications -/

/-- No application of this name is listed, and none is found by a load. -/
def Absent (name : List UInt8) (now : State × Dev) : Prop :=
  (∀ entry ∈ now.1.apps, entry.label ≠ name) ∧ ∀ slot view payload,
    storedApp now.2.disk now.1.volKey now.1.pubkey slot = some (view, payload) → view.label ≠ name

/-- Every slot holds what it held, or nothing. -/
def Sheds (disk after : Disk) : Prop := ∀ key pubkey slot,
  storedApp after key pubkey slot = storedApp disk key pubkey slot ∨
    storedApp after key pubkey slot = none

theorem sheds_beside {region : Nat → Prop} {after : Dev} (wrote : d.WroteIn region after)
    (outside : ∀ lba, region lba → lba < appStartLba) : Sheds d.disk after.disk := by
  refine fun key pubkey slot => .inl (storedApp_congr fun lba howns => wrote.disk_eq fun hlba => ?_)
  exact absurd (outside lba hlba) (Nat.not_lt.mpr ((Nat.le_add_right _ _).trans howns.1))

theorem sheds_clears {disk : Disk} {writes : List (Nat × Sector)}
    (clears : ∀ entry ∈ writes, ClearsHeader entry) : Sheds disk (applyWrites disk writes) := by
  intro key pubkey slot
  rw [storedApp_clears clears]
  split_ifs
  · exact .inr rfl
  · exact .inl rfl

theorem removeApp_sheds (name : List UInt8) : Sheds d.disk (removeApp w st name d).2.2.disk := by
  have hclears := @removeWrites_clears st name
  obtain ⟨-, reply, after, hresult, hmade, -⟩ | ⟨-, houtcome⟩ := @removeApp_cases w st d name
  · rw [hresult, hmade.1]
    exact fun _ _ _ => .inl rfl
  · obtain ⟨-, after, count, hmade, -, -, hresult⟩ | ⟨-, written, hmade, hresult⟩ := houtcome
    · rw [hresult, hmade.1]
      exact sheds_clears fun entry hentry => hclears entry (List.mem_of_mem_take hentry)
    · intro key pubkey slot
      rw [hresult, storedApp_wroteIn (auditRaw_wroteIn ..), hmade.1]
      exact sheds_clears hclears key pubkey slot

/-- Only an installation fills a slot. -/
theorem handle_sheds {req : Request} (other : req ≠ installRequest) :
    Sheds d.disk (handle w st req d).2.2.disk := by
  by_cases hremove : ∃ name, req = removeRequest name
  · obtain ⟨name, rfl⟩ := hremove
    rw [handle_removeRequest]
    exact removeApp_sheds (trim name)
  · refine sheds_beside (handle_wroteIn req) ?_
    rintro lba ((⟨-, -, rfl⟩ | ⟨-, hwindow | rfl⟩ | ⟨hinstall, -⟩ | ⟨name, hname, -⟩) | ⟨-, hnext⟩)
    · decide
    · exact SlotId.owns_before_apps (SlotId.owns_window hwindow)
    · decide
    · exact absurd hinstall other
    · exact absurd ⟨name, hname⟩ hremove
    · exact (nextRecord_audit hnext).2.trans_le (by decide)

theorem Absent.request {name : List UInt8} (h : Absent name (st, d)) {req : Request}
    (other : req ≠ installRequest) : Absent name (handle w st req d).2 := by
  obtain ⟨⟨active, generation, hsystem⟩, -, happs⟩ := @handle_leaves w st d req
  refine ⟨fun entry hentry => ?_, fun slot view payload hstored => ?_⟩
  · exact h.1 entry ((happs entry hentry).resolve_right fun hinstalled => other hinstalled.1)
  · have hkey : (handle w st req d).2.1.volKey = st.volKey := congrArg SystemView.volKey hsystem
    have hpubkey : (handle w st req d).2.1.pubkey = st.pubkey := congrArg SystemView.pubkey hsystem
    rw [hkey, hpubkey] at hstored
    rcases @handle_sheds w st d req other st.volKey st.pubkey slot with hsame | hnone
    · exact h.2 slot view payload (hsame ▸ hstored)
    · rw [hnone] at hstored
      cases hstored

theorem Absent.serve {name : List UInt8} {now : State × Dev} (h : Absent name now) (reqs : List Request)
    (other : installRequest ∉ reqs) : Absent name (serve w reqs now) := by
  induction reqs generalizing now with
  | nil => exact h
  | cons req rest ih =>
      rw [List.mem_cons, not_or] at other
      exact ih (Absent.request h (Ne.symm other.1)) other.2

/-- What an accepted removal leaves, on a service that lists every slot that verifies. -/
theorem removed_absent {name : List UInt8} (listed : ListsStored st d.disk)
    (removed : (removeApp w st name d).1 = ascii "ok removed") :
    (removeApp w st name d).2.1.apps = st.apps.filter (!sameAppName · name) ∧
      Absent name (removeApp w st name d).2 := by
  obtain ⟨-, reply, after, hresult, -, herror⟩ | ⟨-, houtcome⟩ := @removeApp_cases w st d name
  · rw [hresult] at removed
    rw [show reply = ascii "ok removed" from removed] at herror
    exact absurd herror (by decide)
  · obtain ⟨-, after, count, -, -, -, hresult⟩ | ⟨-, written, hmade, hresult⟩ := houtcome
    · have hother : ascii "err: app io" ≠ ascii "ok removed" := by decide
      rw [hresult] at removed
      exact absurd removed hother
    · rw [hresult]
      refine ⟨auditRaw_apps .., fun entry hentry => ?_, fun slot view payload hstored hname => ?_⟩
      · dsimp only at hentry
        rw [auditRaw_apps, List.mem_filter, Bool.not_eq_true', ← Bool.not_eq_true,
          sameAppName_iff] at hentry
        exact hentry.2
      · obtain ⟨seq, prev, hstate⟩ := auditRaw_state w
          { st with apps := st.apps.filter (!sameAppName · name), cachedApp := none } written
          (ascii "app-remove " ++ name)
        dsimp only at hstored
        rw [storedApp_wroteIn (auditRaw_wroteIn ..), hmade.1, hstate, storedApp_remove] at hstored
        split_ifs at hstored with hgone
        obtain ⟨entry, hentry, hview⟩ := listed slot view payload hstored
        refine hgone ⟨entry, hentry, sameAppName_iff.mpr ?_, ?_⟩
        · exact (congrArg AppView.label hview).trans hname
        · exact (congrArg AppView.slot hview).trans (storedApp_slot hstored)

/-- An application whose removal was answered with ok is gone until one is installed,
whatever else is requested and whichever writes fail, from the list and from the disk.
The other entries stay. -/
theorem removed_app_stays_removed (name : List UInt8) (listed : ListsStored st d.disk)
    (removed : (handle w st (removeRequest name) d).1 = ascii "ok removed") (reqs : List Request)
    (other : installRequest ∉ reqs) (later : World) (reads : later.ReadsSucceed) :
    let after := (handle w st (removeRequest name) d).2
    let now := serve w reqs after
    after.1.apps = st.apps.filter (!sameAppName · (trim name)) ∧
      (∀ entry ∈ now.1.apps, entry.label ≠ trim name) ∧
      ∀ entry ∈ (loadApps later now.1 now.2).1.apps, entry.label ≠ trim name := by
  rw [handle_removeRequest] at removed
  obtain ⟨happs, habsent⟩ := removed_absent listed removed
  dsimp only
  rw [handle_removeRequest]
  obtain ⟨hlist, hstored⟩ := @Absent.serve w _ _ habsent reqs other
  refine ⟨happs, hlist, fun entry hentry => ?_⟩
  rw [loadApps_succeed reads, mem_appsOnDisk] at hentry
  obtain ⟨payload, hfound⟩ := hentry
  exact hstored entry.slot entry.view payload (by rw [storedApp, hfound]; rfl)

theorem listsStored_of_apps {disk : Disk} (apps : st.apps = appsOnDisk disk st.volKey st.pubkey) :
    ListsStored st disk := by
  intro slot view payload hstored
  obtain ⟨⟨entry, bytes⟩, hfound, heq⟩ := Option.map_eq_some_iff.mp hstored
  cases heq
  refine ⟨entry, ?_, rfl⟩
  rw [apps, mem_appsOnDisk, appOnDisk_slot hfound]
  exact ⟨bytes, hfound⟩

/-- Both versions go, and a setting and a line in the log do not bring them back. -/
theorem removed_app_stays_removed_pair : ∃ st d,
    boot World.faultless true samplePublic (Dev.fresh pairVolume) = (st, d) ∧
      (∃ entry ∈ st.apps, entry.label = ascii "demo") ∧
      let now := serve World.faultless [.config (ascii "set a b"), .query (ascii "log x")]
        (handle World.faultless st (removeRequest (ascii "demo")) d).2
      ∀ entry ∈ (loadApps World.faultless now.1 now.2).1.apps, entry.label ≠ ascii "demo" := by
  obtain ⟨st, d, hboot, -, hrunning, hkey, happs, -, hstored⟩ := pairVolume_prepared.boot
  rw [← hkey, ← hrunning.pinned] at happs hstored
  have hlisted : ListsStored st d.disk := listsStored_of_apps happs
  have htrim : trim (ascii "demo") = ascii "demo" := by decide
  obtain ⟨entry, hentry, hview⟩ := hlisted 0 (storedView 0 demoThree) [3] (by rw [hstored]; rfl)
  have hlabel : entry.label = ascii "demo" := (congrArg AppView.label hview).trans demoThree_label
  have hwrites : removeWrites st (ascii "demo") ≠ [] := List.ne_nil_of_mem
    ((@mem_removeWrites st _ _ 0 rfl).mpr ⟨entry, hentry, sameAppName_iff.mpr hlabel,
      congrArg AppView.slot hview⟩)
  have hremoved : (handle World.faultless st (removeRequest (ascii "demo")) d).1 =
      ascii "ok removed" := by
    rw [handle_removeRequest, htrim]
    obtain ⟨hnone, -⟩ | ⟨-, ⟨hfails, -⟩ | ⟨-, written, -, hresult⟩⟩ :=
      @removeApp_cases World.faultless st d (ascii "demo")
    · exact absurd (hnone (by decide) hrunning.block) hwrites
    · exact absurd (fun _ _ => rfl) hfails
    · rw [hresult]
  have hgone := (removed_app_stays_removed (ascii "demo") hlisted hremoved
    [.config (ascii "set a b"), .query (ascii "log x")]
      (by decide) World.faultless World.faultless_reads).2.2
  rw [htrim] at hgone
  exact ⟨st, d, hboot, ⟨entry, hentry, hlabel⟩, hgone⟩

end Requests

end Redoubt.Storage
