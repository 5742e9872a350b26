import Redoubt.Storage.Regions

/-!
# A service that fails closed

Whatever the block reads deliver, a mount ends with a system whose payload passed tag,
digest and signature in one load, or in recovery with the compiled-in system and no
application.  In recovery no request but an update writes outside the audit log.
-/

namespace Redoubt.Storage

open Redoubt.Foundation Redoubt.Crypto

/-! ### Accepted applications -/

variable {key pubkey : Bytes 32}

theorem appAccepted_of_seen {w : World} {slot : UInt8} {d : Dev} {entry : AppEntry}
    {payload : List UInt8} (h : appSeen w key pubkey slot d = some (entry, payload)) :
    ∃ hdrSec hdr ct, AppAccepted key pubkey slot hdrSec hdr ct payload ∧
      entry = appEntryFromHeader hdr := by
  unfold appSeen at h
  cases hlba : appSlotLba slot with
  | none =>
      rw [hlba] at h
      cases h
  | some lba =>
      rw [hlba] at h
      dsimp only at h
      rcases hread : brSector w d lba with ⟨_ | hdrSec, after⟩
      · rw [hread] at h
        cases h
      · rw [hread] at h
        obtain ⟨hdr, ct, -, hok, hentry⟩ := openApp_eq_some_iff.mp h
        exact ⟨hdrSec, hdr, ct, hok, hentry⟩

theorem slotAccepted_of_seen {w : World} {slot : SlotId} {d : Dev} {payload : List UInt8}
    {gen : UInt64} (h : slotSeen w key pubkey slot d = some (payload, gen)) :
    ∃ hdrSec hdr ct, SlotAccepted key pubkey hdrSec hdr ct payload := by
  unfold slotSeen at h
  rcases hread : brSector w d slot.hdrLba with ⟨_ | hdrSec, after⟩
  · rw [hread] at h
    cases h
  · rw [hread] at h
    obtain ⟨hdr, ct, -, hok, -⟩ := openSlot_eq_some_iff.mp h
    exact ⟨hdrSec, hdr, ct, hok⟩

/-! ### The outcomes of a mount -/

/-- The service is in recovery with the compiled-in system and lists no application. -/
def InRecovery (block : Bool) (pubkey : Bytes 32) (st : State) : Prop :=
  (∃ key, st.system = { (State.factory block pubkey).system with volKey := key }) ∧ st.apps = []

/-- The service runs a system that was accepted, as was every listed application. -/
def InService (w : World) (block : Bool) (pubkey : Bytes 32) (st : State) : Prop :=
  ∃ key slot gen payload before, slotSeen w key pubkey slot before = some (payload, gen) ∧
    st.system = (State.factory block pubkey).system.mounted key slot gen payload ∧
    ∀ entry ∈ st.apps, ∃ slot before payload,
      appSeen w key pubkey slot before = some (entry, payload)

variable (w : World) (block : Bool) (pubkey : Bytes 32)

/-- The rest of a mount, from a selection that left the factory system. -/
theorem finishMount_cases {selected : Option SlotId} {st : State} (key : Bytes 32) (d : Dev)
    (system : st.system = (State.factory block pubkey).system) (apps : st.apps = []) :
    InRecovery block pubkey (finishMount w key (selected, st, d)).1 ∨
      InService w block pubkey (finishMount w key (selected, st, d)).1 := by
  have hpubkey : st.pubkey = pubkey := congrArg SystemView.pubkey system
  cases selected with
  | none =>
      obtain ⟨st', after, hnone, hsystem, happs, -⟩ := finishMount_none w st d key
      rw [hnone]
      exact .inl ⟨⟨key, by rw [hsystem, system]; rfl⟩, happs.trans apps⟩
  | some slot =>
      cases hseen : slotSeen w key st.pubkey slot d with
      | none =>
          obtain ⟨st', after, hmount, hsystem, happs, -⟩ := mountSlot_unseen w st d hseen
          rw [finishMount, hmount]
          exact .inl ⟨⟨key, by rw [hsystem, system]⟩, happs.trans apps⟩
      | some stored =>
          obtain ⟨st', after, hmount, hsystem, -, hentries, -⟩ := mountSlot_seen w st d hseen
          rw [finishMount, hmount]
          rw [hpubkey] at hseen hentries
          exact .inr ⟨key, slot, stored.2, stored.1, d, hseen, by rw [hsystem, system], hentries⟩

/-- A boot ends in recovery or in service, whatever the reads deliver. -/
theorem boot_cases (d : Dev) : InRecovery block pubkey (boot w block pubkey d).1 ∨
    InService w block pubkey (boot w block pubkey d).1 := by
  have hfactory : InRecovery block pubkey (State.factory block pubkey) := ⟨⟨_, rfl⟩, rfl⟩
  unfold boot
  split_ifs
  · by_cases htrust : ∃ sb, (brSector w d superblockLba).1 = some sb ∧ superblockTrusted sb = true
    · obtain ⟨sb, hsb, trusted⟩ := htrust
      rw [mount_trusted w _ d hsb trusted]
      cases superblockSlot sb with
      | none =>
          rw [selectSlot_none]
          exact finishMount_cases w block pubkey _ _ rfl rfl
      | some slot =>
          cases hseen : slotSeen w (superblockKey sb) (State.factory block pubkey).pubkey slot
              (brSector w d superblockLba).2 with
          | some stored =>
              obtain ⟨st, after, hselect, hsystem, happs, -⟩ :=
                selectSlot_accepted w (State.factory block pubkey) _ (Option.isSome_of_eq_some hseen)
              rw [hselect]
              exact finishMount_cases w block pubkey _ _ hsystem happs
          | none =>
              obtain ⟨-, logged, st, after, -, -, -, hsystem, happs, hselect⟩ :=
                selectSlot_rejected w (State.factory block pubkey) _ hseen
              rw [hselect]
              exact finishMount_cases w block pubkey _ _ hsystem happs
    · rw [mount_untrusted w _ d fun sb hsb =>
        Bool.eq_false_iff.mpr fun trusted => htrust ⟨sb, hsb, trusted⟩]
      exact .inl hfactory
  · exact .inl hfactory

/-! ### Requests -/

section Requests

variable {w : World} (st : State) (d : Dev)

/-- No request changes the mode. -/
theorem handle_recovery (req : Request) : (handle w st req d).2.1.recovery = st.recovery := by
  obtain ⟨active, generation, hsystem⟩ := (@handle_leaves w st d req).system
  exact congrArg SystemView.recovery hsystem

/-- The invariant of recovery: no application is listed. -/
theorem handle_apps {req : Request} (recovery : st.recovery = true) (apps : st.apps = []) :
    (handle w st req d).2.1.apps = [] := by
  refine List.eq_nil_iff_forall_not_mem.mpr fun entry hentry => ?_
  obtain hold | ⟨-, hrunning, -⟩ := (@handle_leaves w st d req).apps entry hentry
  · rw [apps] at hold
    exact List.not_mem_nil hold
  · rw [recovery] at hrunning
    cases hrunning

/-- In recovery, with no application listed, every request but an update writes only audit
records. -/
theorem handle_closed {req : Request} (recovery : st.recovery = true) (apps : st.apps = [])
    (other : req ≠ beginUpdate) : d.WroteIn AuditSector (handle w st req d).2.2 := by
  have hmode : st.recovery ≠ false := by simp [recovery]
  refine (handle_wroteIn req).mono ?_
  rintro lba ((⟨-, hrunning, -⟩ | ⟨hupdate, -⟩ | ⟨-, a, hadmission, -⟩ |
    ⟨name, -, entry, hentry, -⟩) | ⟨-, hnext⟩)
  · exact absurd hrunning hmode
  · exact absurd hupdate other
  · exact absurd (admission_running hadmission) hmode
  · rw [apps] at hentry
    exact absurd hentry List.not_mem_nil
  · exact nextRecord_audit hnext

/-- The service loop. -/
def serve (w : World) : List Request → State × Dev → State × Dev
  | [], now => now
  | req :: rest, (st, d) => serve w rest (handle w st req d).2

/-- Over every run of requests the mode stays, and in recovery no application appears. -/
theorem serve_keeps (reqs : List Request) (apps : st.recovery = true → st.apps = []) :
    (serve w reqs (st, d)).1.recovery = st.recovery ∧
      (st.recovery = true → (serve w reqs (st, d)).1.apps = []) := by
  induction reqs generalizing st d with
  | nil => exact ⟨rfl, apps⟩
  | cons req _ ih =>
      have hmode := @handle_recovery w st d req
      have hkept := ih (handle w st req d).2.1 (handle w st req d).2.2 fun hrecovery =>
        handle_apps st d (hmode ▸ hrecovery) (apps (hmode ▸ hrecovery))
      rw [hmode] at hkept
      exact hkept

end Requests

theorem InService.recovery {block : Bool} {pubkey : Bytes 32} {st : State}
    (h : InService w block pubkey st) : st.recovery = false := by
  obtain ⟨key, slot, gen, payload, before, -, hsystem, -⟩ := h
  exact congrArg SystemView.recovery hsystem

/-- Mounting fails closed. -/
theorem mount_fails_closed (w : World) (block : Bool) (pubkey : Bytes 32) (d : Dev) :
    let st := (boot w block pubkey d).1
    (st.recovery = false ∧
        (∃ slot before hdrSec hdr ct,
          slotSeen w st.volKey pubkey slot before = some (st.payload, st.generation) ∧
          SlotAccepted st.volKey pubkey hdrSec hdr ct st.payload) ∧
        st.roster = parseRoster st.payload ∧
        st.deviceId = (findKv st.payload (ascii "device-id")).getD (ascii "?") ∨
      st.recovery = true ∧ st.payload = factoryPayload ∧ st.roster = parseRoster factoryPayload ∧
        st.deviceId = (findKv factoryPayload (ascii "device-id")).getD (ascii "redoubt-device") ∧
        st.apps = []) ∧
    (∀ entry ∈ st.apps, ∃ slot before payload hdrSec hdr ct,
      appSeen w st.volKey pubkey slot before = some (entry, payload) ∧
      AppAccepted st.volKey pubkey slot hdrSec hdr ct payload ∧ entry = appEntryFromHeader hdr) ∧
    ∀ (reqs : List Request) (req : Request),
      let now := serve w reqs (boot w block pubkey d)
      now.1.recovery = true → req ≠ beginUpdate →
        now.2.WroteIn AuditSector (handle w now.1 req now.2).2.2 := by
  have hcases := boot_cases w block pubkey d
  generalize boot w block pubkey d = started at hcases ⊢
  obtain ⟨st, after⟩ := started
  dsimp only at hcases ⊢
  have hempty : st.recovery = true → st.apps = [] := by
    intro hrecovery
    rcases hcases with hrec | hservice
    · exact hrec.2
    · rw [hservice.recovery] at hrecovery
      cases hrecovery
  refine ⟨?_, ?_, fun reqs req hrecovery hother => ?_⟩
  · rcases hcases with ⟨⟨key, hsystem⟩, happs⟩ | ⟨key, slot, gen, payload, before, hseen, hsystem, -⟩
    · right
      exact ⟨congrArg SystemView.recovery hsystem, congrArg SystemView.payload hsystem,
        congrArg SystemView.roster hsystem, congrArg SystemView.deviceId hsystem, happs⟩
    · left
      obtain ⟨hdrSec, hdr, ct, hok⟩ := slotAccepted_of_seen hseen
      have hkey : st.volKey = key := congrArg SystemView.volKey hsystem
      have hgen : st.generation = gen := congrArg SystemView.generation hsystem
      have hpayload : st.payload = payload := congrArg SystemView.payload hsystem
      rw [hkey, hgen, hpayload]
      exact ⟨congrArg SystemView.recovery hsystem, ⟨slot, before, hdrSec, hdr, ct, hseen, hok⟩,
        congrArg SystemView.roster hsystem, congrArg SystemView.deviceId hsystem⟩
  · rcases hcases with ⟨-, happs⟩ | ⟨key, slot, gen, payload, before, -, hsystem, hentries⟩
    · rw [happs]
      exact fun _ h => (List.not_mem_nil h).elim
    · intro entry hentry
      have hkey : st.volKey = key := congrArg SystemView.volKey hsystem
      obtain ⟨appSlot, load, bytes, hseen⟩ := hentries entry hentry
      obtain ⟨hdrSec, hdr, ct, hok, heq⟩ := appAccepted_of_seen hseen
      rw [hkey]
      exact ⟨appSlot, load, bytes, hdrSec, hdr, ct, hseen, hok, heq⟩
  · obtain ⟨hmode, hkept⟩ := @serve_keeps w st after reqs hempty
    exact handle_closed _ _ hrecovery (hkept (hmode ▸ hrecovery)) hother

end Redoubt.Storage
