import Redoubt.Storage.Settings

/-!
# Settings over runs

No request but a setting writes the configuration sector, and no request changes the key
that its tag is computed with.  With a device that works, what an accepted setting saved
stays saved, and the next mount finds it.
-/

namespace Redoubt.Storage

open Redoubt.Foundation Redoubt.Crypto

section Runs

variable {w : World} {st : State} {d : Dev}

theorem config_not_audit : ¬ AuditSector configLba := by
  unfold AuditSector
  decide

/-- Every other request keeps the configuration on the disk. -/
theorem handle_config_disk {req : Request} (other : ∀ rest, req ≠ setRequest rest) :
    (handle w st req d).2.2.disk configLba = d.disk configLba := by
  refine (handle_wroteIn req).disk_eq ?_
  have happ : ∀ {slot : UInt8}, ¬ AppOwns slot configLba := fun howns =>
    absurd ((Nat.le_add_right _ _).trans howns.1) (by decide)
  rintro ((⟨⟨rest, hset⟩, -⟩ | ⟨-, hwindow | hsb⟩ | ⟨-, a, -, howns⟩ | ⟨name, -, entry, -, -, hlba⟩) |
    ⟨-, hnext⟩)
  · exact other rest hset
  · exact absurd (SlotId.owns_bounds (SlotId.owns_window hwindow)).1 (lt_irrefl _)
  · exact absurd hsb (by decide)
  · exact happ howns
  · exact happ (appOwns_header hlba)
  · exact config_not_audit (nextRecord_audit hnext)

/-- The superblock carries the key of the service. -/
def Keyed (now : State × Dev) : Prop := superblockKey (now.2.disk superblockLba) = now.1.volKey

theorem handle_volKey (req : Request) : (handle w st req d).2.1.volKey = st.volKey := by
  obtain ⟨active, generation, hsystem⟩ := (@handle_leaves w st d req).system
  exact congrArg SystemView.volKey hsystem

theorem runUpdate_superblock : (runUpdate w st d).2.2.disk superblockLba = d.disk superblockLba ∨
    superblockKey ((runUpdate w st d).2.2.disk superblockLba) = st.volKey := by
  obtain ⟨reply, mid, written, houtcome, hends⟩ := @runUpdate_cases w st d
  rw [hends.wroteIn.disk_eq superblock_not_audit]
  cases houtcome with
  | refused _ _ copied => exact .inl copied.keeps.1
  | landed _ _ _ _ superblock =>
      right
      rw [superblock.1]
      exact superblockKey_write ..

/-- Requests keep the key. -/
theorem Keyed.handle (h : Keyed (st, d)) (req : Request) : Keyed (Storage.handle w st req d).2 := by
  unfold Keyed at h ⊢
  rw [handle_volKey]
  by_cases hupdate : req = beginUpdate
  · rw [hupdate, handle_beginUpdate]
    rcases @runUpdate_superblock w st d with hsame | hkey
    · rw [hsame]
      exact h
    · exact hkey
  · have houtside : ¬ Changes w st d req superblockLba := by
      intro hchanges
      obtain haudit | hconfig | ⟨hreq, -⟩ | ⟨happs, -⟩ := changes_cases hchanges
      · exact superblock_not_audit haudit
      · exact absurd hconfig (by decide)
      · exact hupdate hreq
      · exact absurd happs (by decide)
    rw [(handle_changes req).disk_eq houtside]
    exact h

/-- The configuration in memory is the one on the disk. -/
structure Saved (now : State × Dev) : Prop where
  block : now.1.block = true
  sector : now.2.disk configLba = writeConfig now.1.cfgGen now.1.overrides now.1.volKey

theorem Saved.of_config {before : State × Dev} {now : State × Dev} (h : Saved before)
    (config : now.1.config = before.1.config) (sector : now.2.disk configLba = before.2.disk configLba) :
    Saved now where
  block := (congrArg Prod.fst config).trans h.block
  sector := by
    have hkey : now.1.volKey = before.1.volKey := congrArg (·.2.1) config
    have hgen : now.1.cfgGen = before.1.cfgGen := congrArg (·.2.2.1) config
    have htext : now.1.overrides = before.1.overrides := congrArg (·.2.2.2) config
    rw [sector, h.sector, hkey, hgen, htext]

/-- A request that is answered ok has saved what it changed. -/
theorem saved_of_ok {rest : List UInt8} (ok : (handle w st (setRequest rest) d).1 = ascii "ok") :
    st.recovery = false ∧ Saved (handle w st (setRequest rest) d).2 := by
  rw [handle_setRequest] at ok ⊢
  by_cases hrecovery : st.recovery = true
  · rw [if_pos hrecovery] at ok
    exact absurd ok (show ascii "err: recovery mode is read-only" ≠ ascii "ok" by decide)
  · rw [if_neg hrecovery] at ok ⊢
    refine ⟨Bool.eq_false_iff.mpr hrecovery, ?_⟩
    cases htext : setText st.overrides rest with
    | none =>
        obtain ⟨reply, hrefused, herror⟩ := @setKey_refused w st d rest htext
        rw [hrefused] at ok
        exact absurd ok herror
    | some asked =>
        obtain ⟨-, hresult⟩ | ⟨hblock, after, ⟨-, hresult⟩ | ⟨-, hdisk, hresult⟩⟩ :=
          @setKey_outcome w st d _ _ _ htext
        · rw [hresult] at ok
          exact absurd ok (show ascii "err: io" ≠ ascii "ok" by decide)
        · rw [hresult] at ok
          exact absurd ok (show ascii "err: io" ≠ ascii "ok" by decide)
        · rw [hresult]
          have hwritten : Saved ({ st with overrides := asked.2, cfgGen := st.cfgGen + 1 }, after) :=
            ⟨hblock, by rw [hdisk, Function.update_self]⟩
          exact hwritten.of_config (auditRaw_config ..) ((auditRaw_wroteIn ..).disk_eq config_not_audit)

/-- Without failing writes every request keeps memory and disk together. -/
theorem Saved.handle (writes : w.WritesSucceed) (h : Saved (st, d)) (req : Request) :
    Saved (Storage.handle w st req d).2 := by
  by_cases hset : ∃ rest, req = setRequest rest
  · obtain ⟨rest, rfl⟩ := hset
    by_cases hok : (Storage.handle w st (setRequest rest) d).1 = ascii "ok"
    · exact (saved_of_ok hok).2
    · have hharmless : SetHarmless st rest := by
        by_contra hharm
        unfold SetHarmless at hharm
        push Not at hharm
        obtain ⟨hrecovery, hasked, -⟩ := hharm
        exact hok (set_answered (Bool.eq_false_iff.mpr hrecovery) h.block (writes _)
          (Option.ne_none_iff_isSome.mp hasked))
      rw [hharmless.unchanged]
      exact h
  · push Not at hset
    exact h.of_config ((handle_leaves req).config hset) (handle_config_disk hset)

theorem serve_append (first second : List Request) (now : State × Dev) :
    serve w (first ++ second) now = serve w second (serve w first now) := by
  induction first generalizing now with
  | nil => rfl
  | cons _ _ ih => exact ih _

theorem Keyed.serve {now : State × Dev} (h : Keyed now) (reqs : List Request) :
    Keyed (Storage.serve w reqs now) := by
  induction reqs generalizing now with
  | nil => exact h
  | cons req _ ih => exact ih (h.handle req)

theorem Saved.serve {now : State × Dev} (writes : w.WritesSucceed) (h : Saved now) (reqs : List Request) :
    Saved (Storage.serve w reqs now) := by
  induction reqs generalizing now with
  | nil => exact h
  | cons req _ ih => exact ih (h.handle writes req)

theorem serve_recovery (reqs : List Request) (now : State × Dev) :
    (serve w reqs now).1.recovery = now.1.recovery := by
  induction reqs generalizing now with
  | nil => rfl
  | cons req _ ih => exact (ih _).trans (handle_recovery now.1 now.2 req)

/-- A service that mounted a slot has the key of the superblock. -/
theorem boot_keyed (reads : w.ReadsSucceed) {pubkey : Bytes 32} {d : Dev}
    (running : (boot w true pubkey d).1.recovery = false) : Keyed (boot w true pubkey d) := by
  have hkey : (boot w true pubkey d).1.volKey = superblockKey (d.disk superblockLba) :=
    congrArg (·.2.1) (boot_config reads running)
  unfold Keyed
  rw [boot_superblock, hkey]

/-- A reboot finds what was saved. -/
theorem Saved.reboot {later : World} (reads : later.ReadsSucceed) {pubkey : Bytes 32} {now : State × Dev}
    (h : Saved now) (keyed : Keyed now)
    (running : (boot later true pubkey (Dev.fresh now.2.disk)).1.recovery = false) :
    (boot later true pubkey (Dev.fresh now.2.disk)).1.overrides = now.1.overrides ∧
      (boot later true pubkey (Dev.fresh now.2.disk)).1.cfgGen = now.1.cfgGen := by
  have hconfig := boot_config reads running
  have hkey : superblockKey ((Dev.fresh now.2.disk).disk superblockLba) = now.1.volKey := keyed
  have hsector : (Dev.fresh now.2.disk).disk configLba =
      writeConfig now.1.cfgGen now.1.overrides now.1.volKey := h.sector
  rw [hkey, hsector, storedConfig_write, Option.getD_some] at hconfig
  exact ⟨congrArg (·.2.2.2) hconfig, congrArg (·.2.2.1) hconfig⟩

end Runs

/-- A setting does not touch what a mount boots. -/
theorem BootsCommit.setRequest {pubkey : Bytes 32} {d : Dev} {c : Commit}
    (h : BootsCommit pubkey d.disk c) (w : World) (st : State) (rest : List UInt8) :
    BootsCommit pubkey (handle w st (Storage.setRequest rest) d).2.2.disk c := by
  have hwrote : d.WroteIn (fun lba => lba = configLba ∨ NextRecord st lba)
      (handle w st (Storage.setRequest rest) d).2.2 := by
    refine (handle_changes (Storage.setRequest rest)).mono fun lba hlba => ?_
    unfold Changes Storage.setRequest at hlba
    simpa only [stripPrefix_append, Option.isSome_some, if_true] using hlba
  refine h.congr (hwrote.disk_eq ?_) fun lba howns => hwrote.disk_eq ?_
  · rintro (hconfig | hnext)
    · exact absurd hconfig (by decide)
    · exact superblock_not_audit (nextRecord_audit hnext)
  · rintro (rfl | hnext)
    · exact absurd (SlotId.owns_bounds howns).1 (lt_irrefl _)
    · exact SlotId.not_owns_audit howns (nextRecord_audit hnext)

/-- Settings are durable: once a request was answered ok, a reboot that mounts a slot finds
the overrides and the generation that were in memory; and the text always fits its sector. -/
theorem settings_durable (w : World) (reads : w.ReadsSucceed) (writes : w.WritesSucceed)
    (pubkey : Bytes 32) (disk : Disk) (before after : List Request) (rest : List UInt8)
    (ok : (handle w (serve w before (boot w true pubkey (Dev.fresh disk))).1 (setRequest rest)
      (serve w before (boot w true pubkey (Dev.fresh disk))).2).1 = ascii "ok")
    (later : World) (readsLater : later.ReadsSucceed) (pubkeyLater : Bytes 32) :
    let last := serve w (before ++ setRequest rest :: after) (boot w true pubkey (Dev.fresh disk))
    let again := (boot later true pubkeyLater (Dev.fresh last.2.disk)).1
    (again.recovery = false → again.overrides = last.1.overrides ∧ again.cfgGen = last.1.cfgGen) ∧
      ∀ reqs, (serve w reqs
        (boot w true pubkey (Dev.fresh disk))).1.overrides.val.length ≤ cfgTextMax := by
  intro last again
  obtain ⟨hrunning, hsaved⟩ := saved_of_ok ok
  rw [serve_recovery] at hrunning
  have hkeyed : Keyed last := (boot_keyed reads hrunning).serve (before ++ setRequest rest :: after)
  have hkept : Saved last := by
    change Saved (serve w (before ++ setRequest rest :: after) (boot w true pubkey (Dev.fresh disk)))
    rw [serve_append]
    exact hsaved.serve writes after
  exact ⟨fun hmounted => hkept.reboot readsLater hkeyed hmounted, fun reqs =>
    (serve w reqs (boot w true pubkey (Dev.fresh disk))).1.overrides.property⟩

/-- The sample service is told its name and started again. -/
theorem settings_durable_hostname : ∃ st d,
    boot World.faultless true samplePublic (Dev.fresh sampleVolume) = (st, d) ∧
      let last := (handle World.faultless st (setRequest (ascii "hostname box")) d).2
      let again := (boot World.faultless true samplePublic (Dev.fresh last.2.disk)).1
      again.recovery = false ∧ again.overrides = last.1.overrides ∧ again.cfgGen = last.1.cfgGen := by
  obtain ⟨st, d, hboot, hrunning, hblock, hoverrides, hboots⟩ := sampleVolume_settings
  have hok := @set_answered World.faultless st d (ascii "hostname box") hrunning hblock rfl
    (by rw [hoverrides]; decide +kernel)
  have hdurable :=
    settings_durable World.faultless World.faultless_reads World.faultless_writes samplePublic
    sampleVolume [] [] (ascii "hostname box") (by rw [serve, hboot]; exact hok) World.faultless
    World.faultless_reads samplePublic
  rw [List.nil_append, hboot] at hdurable
  refine ⟨st, d, hboot, ?_⟩
  intro last again
  have hmounted : again.recovery = false := by
    obtain ⟨st', d', hagain, -, hrunning', -⟩ :=
      boot_lists (hboots.setRequest World.faultless st (ascii "hostname box")) World.faultless_reads
    exact (congrArg (·.1.recovery) hagain).trans hrunning'.recovery
  exact ⟨hmounted, hdurable.1 hmounted⟩

end Redoubt.Storage
