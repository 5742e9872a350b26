import Redoubt.Storage.AppAgreement
import Redoubt.Storage.FailClosed
import Redoubt.Storage.Remounting
import Redoubt.Storage.TextLaws

/-!
# Settings

A `set` request rebuilds the text of the overrides line by line and appends a line for
its key.  Read as a list of assignments the text changes like a map, unless key or value
bring separators of their own.  The new text is in memory before it is on the disk, so
that a request may fail and be in force.
-/

namespace Redoubt.Storage

open Redoubt.Foundation Redoubt.Crypto

/-! ### The request -/

/-- Key and value of a request. -/
def setArgs (rest : List UInt8) : Option (List UInt8 × List UInt8) :=
  (rest.findIdx? (· == 32)).map fun index => (trim (rest.take index), trim (rest.drop (index + 1)))

/-- The overrides that a request asks for, with its key, if it passes the checks. -/
def setText (overrides : ConfigText) (rest : List UInt8) : Option (List UInt8 × ConfigText) :=
  (setArgs rest).bind fun args =>
    if args.1.isEmpty ∨ 24 < args.1.length ∨ 24 < args.2.length then none
    else
      if h : (dropKey overrides.val args.1 ++ args.1 ++ [61] ++ args.2 ++ [10]).length ≤ cfgTextMax then
        some (args.1, ⟨_, h⟩)
      else none

section Request

variable {w : World} {st : State} {d : Dev}

/-- A request that fails a check is answered with an error, and nothing happens. -/
theorem setKey_refused {rest : List UInt8} (h : setText st.overrides rest = none) : ∃ reply,
    setKey w st rest d = (reply, st, d) ∧ reply ≠ ascii "ok" := by
  unfold setText setArgs at h
  unfold setKey
  cases hindex : rest.findIdx? (· == 32) with
  | none => exact ⟨_, rfl, by decide⟩
  | some =>
      rw [hindex, Option.map_some, Option.bind_some] at h
      dsimp only at h ⊢
      split_ifs at h with hbounds hroom
      · rw [if_pos hbounds]
        exact ⟨_, rfl, by decide⟩
      · rw [if_neg hbounds, dif_neg hroom]
        exact ⟨_, rfl, by decide⟩

theorem setKey_asked {rest key : List UInt8} {text : ConfigText}
    (h : setText st.overrides rest = some (key, text)) :
    setKey w st rest d =
      if (persistOverrides w { st with overrides := text } d).1 then
        (ascii "ok", auditRaw w (persistOverrides w { st with overrides := text } d).2.1
          (ascii "cfg-set " ++ key) (persistOverrides w { st with overrides := text } d).2.2)
      else (ascii "err: io", (persistOverrides w { st with overrides := text } d).2) := by
  unfold setText setArgs at h
  unfold setKey
  cases hindex : rest.findIdx? (· == 32) with
  | none =>
      rw [hindex] at h
      cases h
  | some =>
      rw [hindex, Option.map_some, Option.bind_some] at h
      dsimp only at h ⊢
      split_ifs at h with hbounds hroom
      cases h
      rw [if_neg hbounds, dif_pos hroom]
      rcases persistOverrides w { st with overrides := ⟨_, hroom⟩ } d with ⟨_ | _, st', d'⟩ <;> rfl

/-- What becomes of a request that passes the checks: without a device or with a failing
write the new text is in memory only. -/
theorem setKey_outcome {rest key : List UInt8} {text : ConfigText}
    (h : setText st.overrides rest = some (key, text)) :
    (st.block = false ∧ setKey w st rest d = (ascii "err: io", { st with overrides := text }, d)) ∨
    (st.block = true ∧ ∃ after,
      (w.write d.writes ≠ none ∧ setKey w st rest d =
        (ascii "err: io", { st with overrides := text, cfgGen := st.cfgGen + 1 }, after)) ∨
      (w.write d.writes = none ∧
        after.disk = Function.update d.disk configLba (writeConfig (st.cfgGen + 1) text st.volKey) ∧
        setKey w st rest d = (ascii "ok",
          auditRaw w { st with overrides := text, cfgGen := st.cfgGen + 1 }
            (ascii "cfg-set " ++ key) after))) := by
  rw [setKey_asked h]
  by_cases hblock : st.block = true
  · have hpersist : persistOverrides w { st with overrides := text } d =
        ((bw w d configLba [writeConfig (st.cfgGen + 1) text st.volKey]).1,
          { st with overrides := text, cfgGen := st.cfgGen + 1 },
          (bw w d configLba [writeConfig (st.cfgGen + 1) text st.volKey]).2) := by
      unfold persistOverrides
      rw [if_neg (by rw [hblock]; decide)]
    rw [hpersist]
    refine .inr ⟨hblock, (bw w d configLba [writeConfig (st.cfgGen + 1) text st.volKey]).2, ?_⟩
    obtain ⟨hok, after, hbw, hmade, -⟩ | ⟨fault, after, hfault, hbw, -⟩ :=
      bw_cases w d configLba [writeConfig (st.cfgGen + 1) text st.volKey]
    · rw [hbw]
      exact .inr ⟨hok, hmade.1, rfl⟩
    · rw [hbw]
      exact .inl ⟨by rw [hfault]; exact Option.some_ne_none _, rfl⟩
  · have hnone : st.block = false := Bool.eq_false_iff.mpr hblock
    have hpersist : persistOverrides w { st with overrides := text } d =
        (false, { st with overrides := text }, d) := by
      unfold persistOverrides
      rw [if_pos (by rw [hnone]; rfl)]
    exact .inl ⟨hnone, by rw [hpersist]; rfl⟩

end Request

/-! ### The overrides as a map -/

section Map

variable {st : State} {key value other : List UInt8}

theorem lookup_eq (st : State) (key : List UInt8) :
    lookup st key = ((assignments st.overrides.val).lookup key).or (findKv st.payload key) := by
  unfold lookup
  rw [findSome?_lineValue]
  cases (assignments st.overrides.val).lookup key <;> rfl

/-- Only keys without separators are found, with values of a single line. -/
theorem lookup_clean (h : lookup st key = some value) : 61 ∉ key ∧ 10 ∉ key ∧ 10 ∉ value := by
  rw [lookup_eq] at h
  cases hfound : (assignments st.overrides.val).lookup key with
  | none =>
      rw [hfound, Option.none_or] at h
      exact findKv_clean h
  | some =>
      rw [hfound, Option.some_or] at h
      cases h
      obtain ⟨before, after, hsplit, -⟩ := List.lookup_eq_some_iff.mp hfound
      exact assignments_clean (hsplit ▸ List.mem_append_right before List.mem_cons_self)

/-- Removing a key removes its assignments. -/
theorem assignments_dropKey (text key rest : List UInt8) :
    assignments (dropKey text key ++ rest) =
      (assignments text).filter (fun pair => pair.1 ≠ key) ++ assignments rest := by
  have hlines : ∀ line ∈ lines text, 10 ∉ line := fun line hline => not_mem_of_mem_splitOn hline
  unfold dropKey
  rw [assignments.eq_1 text]
  generalize lines text = parts at hlines
  induction parts with
  | nil => rfl
  | cons line _ ih =>
      have hrest := ih fun other hother => hlines other (List.mem_cons_of_mem _ hother)
      rw [List.flatMap_cons, List.append_assoc, List.filterMap_cons]
      dsimp only
      by_cases hblank : trim line = []
      · rw [hblank, assignment_blank hblank]
        exact hrest
      · rw [if_neg (by rw [List.isEmpty_iff]; exact hblank)]
        have hname : (splitKv (trim line)).map (·.1) = (assignment line).map (·.1) := by
          rw [assignment, Option.map_map]
          rfl
        have hsingle : 10 ∉ trim line := fun hmem => hlines line List.mem_cons_self (mem_of_mem_trim hmem)
        rw [hname]
        cases hassign : assignment line with
        | none =>
            rw [Option.map_none, if_neg (by simp), List.append_assoc, List.singleton_append,
              assignments_line hsingle, assignment_trim, hassign]
            exact hrest
        | some pair =>
            by_cases hkey : pair.1 = key
            · rw [Option.map_some, hkey, if_pos rfl, List.filter_cons_of_neg (by simp [hkey])]
              exact hrest
            · rw [Option.map_some, if_neg (by simpa using hkey), List.append_assoc, List.singleton_append,
                assignments_line hsingle, assignment_trim, hassign,
                  List.filter_cons_of_pos (by simpa using hkey)]
              exact congrArg (pair :: ·) hrest

theorem lookup_filter_self (pairs : List (List UInt8 × List UInt8)) (key : List UInt8) :
    (pairs.filter fun pair => pair.1 ≠ key).lookup key = none := by
  rw [List.lookup_eq_none_iff]
  intro pair hpair
  have hne := (List.mem_filter.mp hpair).2
  rw [bne_iff_ne]
  exact fun heq => of_decide_eq_true hne heq.symm

theorem lookup_filter_ne (pairs : List (List UInt8 × List UInt8)) (different : other ≠ key) :
    (pairs.filter fun pair => pair.1 ≠ key).lookup other = pairs.lookup other := by
  induction pairs with
  | nil => rfl
  | cons pair _ ih =>
      obtain ⟨name, found⟩ := pair
      by_cases hkey : name = key
      · rw [List.filter_cons_of_neg (by simp [hkey]), ih, List.lookup_cons, hkey,
          beq_eq_false_iff_ne.mpr different]
      · rw [List.filter_cons_of_pos (by simpa using hkey), List.lookup_cons, List.lookup_cons, ih]

/-- The line of a request without separators of its own. -/
theorem assignments_setLine (named : key ≠ []) (hkey : Trimmed key) (hvalue : Trimmed value)
    (noEq : 61 ∉ key) (single : 10 ∉ key) (single' : 10 ∉ value) :
    assignments (key ++ [61] ++ value ++ [10]) = [(key, value)] := by
  have hline : 10 ∉ key ++ 61 :: value := by
    rw [List.mem_append, List.mem_cons, not_or, not_or]
    exact ⟨single, by decide, single'⟩
  have hassign : assignment (key ++ 61 :: value) = some (key, value) := by
    rw [assignment_eq_some_iff]
    exact ⟨value, (hkey.assignment named hvalue).trim_eq, noEq, hvalue.trim_eq⟩
  rw [List.append_assoc key, List.singleton_append, assignments_line hline, hassign]
  rfl

/-- What a request makes of the assignments. -/
theorem setText_assignments {overrides text : ConfigText} {rest : List UInt8} {key' : List UInt8}
    (args : setArgs rest = some (key, value)) (asked : setText overrides rest = some (key', text)) :
    key' = key ∧ key ≠ [] ∧ Trimmed key ∧ Trimmed value ∧ assignments text.val =
      (assignments overrides.val).filter (fun pair => pair.1 ≠ key) ++
        assignments (key ++ [61] ++ value ++ [10]) := by
  have htrimmed : Trimmed key ∧ Trimmed value := by
    unfold setArgs at args
    obtain ⟨index, -, heq⟩ := Option.map_eq_some_iff.mp args
    cases heq
    exact ⟨trimmed_trim _, trimmed_trim _⟩
  unfold setText at asked
  rw [args, Option.bind_some] at asked
  dsimp only at asked
  split_ifs at asked with hbounds hroom
  cases asked
  push Not at hbounds
  refine ⟨rfl, fun hempty => ?_, htrimmed.1, htrimmed.2, ?_⟩
  · rw [hempty] at hbounds
    exact hbounds.1 rfl
  · rw [← assignments_dropKey]
    simp only [List.append_assoc]

end Map

/-! ### The configuration sector at a mount -/

/-- Generation and text of a sector whose tag is right. -/
def storedConfig (key : Bytes 32) (sec : Sector) : Option (UInt64 × ConfigText) :=
  if sec.slice 0 8 magic_inside = cfgMagic ∧
      configMac key sec = sec.slice 448 32 configTag_inside then
    (parseConfig sec.val).map (·.2)
  else none

theorem storedConfig_write (key : Bytes 32) (gen : UInt64) (text : ConfigText) :
    storedConfig key (writeConfig gen text key) = some (gen, text) := by
  rw [storedConfig, if_pos ⟨configMagic_write gen text key, (configTag_write gen text key).symm⟩,
    parseConfig_write]
  rfl

theorem storedConfig_zeros (key : Bytes 32) : storedConfig key (Bytes.zeros 512) = none :=
  if_neg fun h => absurd h.1 (by decide +kernel)

section Mount

variable {w : World} {st : State} {d : Dev} {key pubkey : Bytes 32}

theorem auditRaw_config (w : World) (st : State) (d : Dev) (text : List UInt8) :
    (auditRaw w st text d).1.config = st.config := by
  obtain ⟨seq, prev, hstate⟩ := auditRaw_state w st d text
  rw [hstate]
  rfl

theorem mountConfig_config (reads : w.ReadsSucceed) : (mountConfig w st d).1.config =
    (st.block, st.volKey, (storedConfig st.volKey (d.disk configLba)).getD
      (st.cfgGen, st.overrides)) := by
  have hread := @brSector_succeed w d reads configLba
  unfold mountConfig storedConfig
  generalize brSector w d configLba = result at hread ⊢
  obtain ⟨sec?, after⟩ := result
  cases hread
  dsimp only
  by_cases hmagic : (d.disk configLba).slice 0 8 = cfgMagic
  · rw [if_neg (not_not.mpr hmagic)]
    by_cases htag : configMac st.volKey (d.disk configLba) = (d.disk configLba).slice 448 32
    · rw [if_pos (constantTimeEq_bytes.mpr htag), if_pos ⟨hmagic, htag⟩]
      cases parseConfig (d.disk configLba).val <;> rfl
    · rw [if_neg fun h => htag (constantTimeEq_bytes.mp h), if_neg fun h => htag h.2, auditRaw_config]
      rfl
  · rw [if_pos hmagic, if_neg fun h => hmagic h.1]
    rfl

theorem mountSlot_config (reads : w.ReadsSucceed) {slot : SlotId} {stored : List UInt8 × UInt64}
    (seen : slotSeen w key st.pubkey slot d = some stored) : (mountSlot w st key slot d).1.config =
      (st.block, key, (storedConfig key (d.disk configLba)).getD (st.cfgGen, st.overrides)) := by
  obtain ⟨out, read, honly, hload, -⟩ := validateAndLoad_eq w key slot st.pubkey st.workspace d
  unfold mountSlot
  rw [hload, seen]
  dsimp only [Option.map_some]
  rw [auditRaw_config]
  refine (mountConfig_config reads).trans ?_
  rw [honly.disk]

theorem selectSlot_config (w : World) (st : State) (d : Dev) (key : Bytes 32) (active : Option SlotId) :
    (selectSlot w st key active d).2.1.config = st.config ∧
      (selectSlot w st key active d).2.1.system = st.system ∧
      (selectSlot w st key active d).2.2.disk configLba = d.disk configLba := by
  have haudit : ¬ AuditSector configLba := by
    unfold AuditSector
    decide
  cases active with
  | none => exact ⟨rfl, rfl, rfl⟩
  | some slot =>
      obtain ⟨out, read, honly, hvalid⟩ := slotValidates_spec w d key slot st.pubkey st.workspace
      unfold selectSlot
      rw [hvalid]
      cases (slotSeen w key st.pubkey slot d).isSome with
      | true => exact ⟨rfl, rfl, congrFun honly.disk configLba⟩
      | false =>
          dsimp only
          have hcleared : (zeroHeader w slot read).disk configLba = d.disk configLba := by
            rw [(zeroHeader_wroteIn w read slot).disk_eq, honly.disk]
            cases slot <;> decide
          have hscan := scanAudit_onlyRead w { st with workspace := out } (zeroHeader w slot read)
          have hlogged :=
            auditRaw_config w (scanAudit w { st with workspace := out } (zeroHeader w slot read)).1
            (scanAudit w { st with workspace := out } (zeroHeader w slot read)).2
            (ascii "rollback slot " ++ [slot.letter])
          have hsystem :=
            auditRaw_system w (scanAudit w { st with workspace := out } (zeroHeader w slot read)).1
            (scanAudit w { st with workspace := out } (zeroHeader w slot read)).2
            (ascii "rollback slot " ++ [slot.letter])
          have hwrote :=
            auditRaw_wroteIn w (scanAudit w { st with workspace := out } (zeroHeader w slot read)).1
            (scanAudit w { st with workspace := out } (zeroHeader w slot read)).2
            (ascii "rollback slot " ++ [slot.letter])
          have hdisk := (hwrote.disk_eq haudit).trans ((congrFun hscan.disk configLba).trans hcleared)
          generalize auditRaw w (scanAudit w { st with workspace := out } (zeroHeader w slot read)).1
            (ascii "rollback slot " ++ [slot.letter])
            (scanAudit w { st with workspace := out } (zeroHeader w slot read)).2 = logged
            at hlogged hsystem hdisk ⊢
          obtain ⟨st', after⟩ := logged
          obtain ⟨out', last, honly', hother⟩ :=
            slotValidates_spec w after key slot.other st'.pubkey st'.workspace
          have hlast := (congrFun honly'.disk configLba).trans hdisk
          dsimp only
          rw [hother]
          cases (slotSeen w key st'.pubkey slot.other after).isSome with
          | true => exact ⟨hlogged, hsystem, hlast⟩
          | false => exact ⟨hlogged, hsystem, hlast⟩

/-- A service that mounted a slot has the key of the superblock, and the configuration of
the disk or else the factory one. -/
theorem boot_config (reads : w.ReadsSucceed) (running : (boot w true pubkey d).1.recovery = false) :
    (boot w true pubkey d).1.config = (true, superblockKey (d.disk superblockLba),
      (storedConfig (superblockKey (d.disk superblockLba)) (d.disk configLba)).getD
        (0, factoryConfig)) := by
  by_cases trusted : superblockTrusted (d.disk superblockLba) = true
  · have hmount := mount_trusted w (State.factory true pubkey) d (brSector_succeed reads _) trusted
    rw [boot, if_pos rfl, hmount] at running ⊢
    have hread := brSector_onlyRead w d superblockLba
    obtain ⟨hconfig, hfactory, hdisk⟩ :=
      selectSlot_config w (State.factory true pubkey) (brSector w d superblockLba).2
      (superblockKey (d.disk superblockLba)) (superblockSlot (d.disk superblockLba))
    rw [hread.disk] at hdisk
    generalize selectSlot w (State.factory true pubkey) (superblockKey (d.disk superblockLba))
      (superblockSlot (d.disk superblockLba)) (brSector w d superblockLba).2 = selected
      at running hconfig hfactory hdisk ⊢
    obtain ⟨_ | slot, st, after⟩ := selected
    all_goals have hmode : st.recovery = true := congrArg SystemView.recovery hfactory
    · obtain ⟨st', last, hnone, hsystem, -⟩ :=
        finishMount_none w st after (superblockKey (d.disk superblockLba))
      have hrecovery : st'.recovery = st.recovery := congrArg SystemView.recovery hsystem
      rw [hnone, hrecovery, hmode] at running
      cases running
    · rw [finishMount] at running ⊢
      cases hseen : slotSeen w (superblockKey (d.disk superblockLba)) st.pubkey slot after with
      | none =>
          obtain ⟨st', last, hslot, hsystem, -⟩ := mountSlot_unseen w st after hseen
          have hrecovery : st'.recovery = st.recovery := congrArg SystemView.recovery hsystem
          rw [hslot, hrecovery, hmode] at running
          cases running
      | some =>
          have hblock : st.block = true := congrArg Prod.fst hconfig
          have hdefault : (st.cfgGen, st.overrides) = (0, factoryConfig) := congrArg (·.2.2) hconfig
          rw [mountSlot_config reads hseen, hdisk, hblock, hdefault]
  · have huntrusted := mount_untrusted w (State.factory true pubkey) d fun sb hsb => by
      rw [brSector_succeed reads] at hsb
      cases hsb
      exact Bool.eq_false_iff.mpr trusted
    rw [boot, if_pos rfl, huntrusted] at running
    cases running

end Mount

/-- A request that is answered ok changes the configuration like a map exactly when its
key holds neither an equals sign nor a line end, and its value no line end. -/
theorem set_updates_map_iff (w : World) (st : State) (d : Dev) (rest key value : List UInt8)
    (args : setArgs rest = some (key, value)) (running : st.recovery = false)
    (ok : (handle w st (setRequest rest) d).1 = ascii "ok") :
    (lookup (handle w st (setRequest rest) d).2.1 key = some value ∧
      ∀ other, other ≠ key → lookup (handle w st (setRequest rest) d).2.1 other = lookup st other) ↔
    61 ∉ key ∧ 10 ∉ key ∧ 10 ∉ value := by
  refine ⟨fun h => lookup_clean h.1, ?_⟩
  rintro ⟨hnoEq, hsingle, hsingle'⟩
  rw [handle_setRequest, running] at ok ⊢
  cases hasked : setText st.overrides rest with
  | none =>
      obtain ⟨reply, hrefused, herror⟩ := @setKey_refused w st d rest hasked
      rw [hrefused] at ok
      exact absurd ok herror
  | some asked =>
      obtain ⟨key', text⟩ := asked
      obtain ⟨rfl, hnamed, hkey, hvalue, hassign⟩ := setText_assignments args hasked
      rw [assignments_setLine hnamed hkey hvalue hnoEq hsingle hsingle'] at hassign
      have hafter : ∀ name, lookup (setKey w st rest d).2.1 name =
          ((assignments text.val).lookup name).or (findKv st.payload name) := by
        obtain ⟨-, hresult⟩ | ⟨-, after, ⟨-, hresult⟩ | ⟨-, -, hresult⟩⟩ :=
          @setKey_outcome w st d _ _ _ hasked
        · intro name
          rw [hresult, lookup_eq]
        · intro name
          rw [hresult, lookup_eq]
        · intro name
          obtain ⟨seq, prev, hstate⟩ := auditRaw_state w
            { st with overrides := text, cfgGen := st.cfgGen + 1 } after (ascii "cfg-set " ++ key')
          rw [hresult]
          dsimp only
          rw [hstate, lookup_eq]
      simp only [Bool.false_eq_true, if_false]
      refine ⟨?_, fun other hother => ?_⟩
      · rw [hafter, hassign, List.lookup_append, lookup_filter_self, Option.none_or, List.lookup_cons,
          beq_self_eq_true]
        rfl
      · rw [hafter, hassign, List.lookup_append, lookup_filter_ne _ hother, List.lookup_cons,
          beq_eq_false_iff_ne.mpr hother, List.lookup_nil, Option.or_none, lookup_eq]

/-- A volume without a configuration sector has the factory configuration. -/
theorem boot_unconfigured {w : World} {pubkey : Bytes 32} {disk : Disk} {st : State} {d : Dev}
    (reads : w.ReadsSucceed) (booted : boot w true pubkey (Dev.fresh disk) = (st, d))
    (running : st.recovery = false) (blank : disk configLba = Bytes.zeros 512) :
    st.overrides = factoryConfig := by
  have hconfig := @boot_config w (Dev.fresh disk) pubkey reads (by rw [booted]; exact running)
  have hblank : (Dev.fresh disk).disk configLba = Bytes.zeros 512 := blank
  rw [booted, hblank, storedConfig_zeros, Option.getD_none] at hconfig
  exact congrArg (·.2.2.2) hconfig

theorem BootsCommit.mounted {pubkey : Bytes 32} {disk : Disk} {c : Commit} {d : Dev}
    (h : BootsCommit pubkey disk c) (wrote : (Dev.fresh disk).WroteIn AuditSector d) :
    BootsCommit pubkey d.disk c :=
  h.congr (wrote.disk_eq superblock_not_audit) fun _ howns => wrote.disk_eq (SlotId.not_owns_audit howns)

/-- A running service on the sample volume, with the factory configuration. -/
theorem sampleVolume_settings : ∃ st d,
    boot World.faultless true samplePublic (Dev.fresh sampleVolume) = (st, d) ∧ st.recovery = false ∧
      st.block = true ∧ st.overrides = factoryConfig ∧
      BootsCommit samplePublic d.disk (.a, 1, factoryPayload) := by
  obtain ⟨st, d, hboot, hwrote, hrunning, -⟩ := sampleVolume_prepared.boot
  have hblank : sampleVolume configLba = Bytes.zeros 512 := by
    refine (sampleDisk_outside _ 1 fun howns => ?_).trans (if_neg (by decide))
    exact absurd (SlotId.owns_bounds howns).1 (lt_irrefl _)
  refine ⟨st, d, hboot, hrunning.recovery, hrunning.block,
    boot_unconfigured World.faultless_reads hboot hrunning.recovery hblank, ?_⟩
  exact sampleVolume_prepared.boots.mounted hwrote

/-- With a device that works a request that passes the checks is answered ok. -/
theorem set_answered {w : World} {st : State} {d : Dev} {rest : List UInt8}
    (running : st.recovery = false) (block : st.block = true) (writes : w.write d.writes = none)
    (asked : (setText st.overrides rest).isSome = true) :
    (handle w st (setRequest rest) d).1 = ascii "ok" := by
  obtain ⟨⟨key, text⟩, htext⟩ := Option.isSome_iff_exists.mp asked
  rw [handle_setRequest, running]
  obtain ⟨hnone, -⟩ | ⟨-, after, ⟨hfails, -⟩ | ⟨-, -, hresult⟩⟩ := @setKey_outcome w st d _ _ _ htext
  · rw [block] at hnone
    cases hnone
  · exact absurd writes hfails
  · simp [hresult]

theorem set_updates_map_iff_hostname : ∃ st d,
    boot World.faultless true samplePublic (Dev.fresh sampleVolume) = (st, d) ∧
      lookup (handle World.faultless st (setRequest (ascii "hostname box")) d).2.1 (ascii "hostname") =
        some (ascii "box") := by
  obtain ⟨st, d, hboot, hrunning, hblock, hoverrides, -⟩ := sampleVolume_settings
  have hok := @set_answered World.faultless st d (ascii "hostname box") hrunning hblock rfl
    (by rw [hoverrides]; decide +kernel)
  exact ⟨st, d, hboot,
    ((set_updates_map_iff World.faultless st d (ascii "hostname box") (ascii "hostname")
    (ascii "box") (by decide +kernel) hrunning hok).mpr (by decide)).1⟩

/-- A key with an equals sign is accepted and then not found. -/
theorem accepted_key_not_found : ∃ st d,
    boot World.faultless true samplePublic (Dev.fresh sampleVolume) = (st, d) ∧ st.recovery = false ∧
      setArgs (ascii "a=b c") = some (ascii "a=b", ascii "c") ∧
      (handle World.faultless st (setRequest (ascii "a=b c")) d).1 = ascii "ok" ∧
      lookup (handle World.faultless st (setRequest (ascii "a=b c")) d).2.1 (ascii "a=b") ≠
        some (ascii "c") := by
  obtain ⟨st, d, hboot, hrunning, hblock, hoverrides, -⟩ := sampleVolume_settings
  refine ⟨st, d, hboot, hrunning, by decide +kernel, set_answered hrunning hblock rfl ?_,
    fun hfound => ?_⟩
  · rw [hoverrides]
    decide +kernel
  · exact absurd (lookup_clean hfound).1 (by decide)

/-! ### Requests that fail -/

/-- Overrides, generation, sector and audit cursor are as before. -/
structure ConfigKept (st : State) (d : Dev) (after : State × Dev) : Prop where
  overrides : after.1.overrides = st.overrides
  generation : after.1.cfgGen = st.cfgGen
  sector : after.2.disk configLba = d.disk configLba
  cursor : after.1.cursor = st.cursor

theorem ConfigKept.refl (st : State) (d : Dev) : ConfigKept st d (st, d) := ⟨rfl, rfl, rfl, rfl⟩

/-- The requests that fail before anything is changed, or that change nothing. -/
def SetHarmless (st : State) (rest : List UInt8) : Prop :=
  st.recovery = true ∨ setText st.overrides rest = none ∨
    (st.block = false ∧ ∃ key, setText st.overrides rest = some (key, st.overrides))

theorem SetHarmless.unchanged {w : World} {st : State} {d : Dev} {rest : List UInt8}
    (h : SetHarmless st rest) :
    (handle w st (setRequest rest) d).2 = (st, d) := by
  rw [handle_setRequest]
  by_cases hrecovery : st.recovery = true
  · rw [if_pos hrecovery]
  · rw [if_neg hrecovery]
    obtain hmode | hnone | ⟨hblock, key, hsame⟩ := h
    · exact absurd hmode hrecovery
    · obtain ⟨reply, hrefused, -⟩ := @setKey_refused w st d rest hnone
      rw [hrefused]
    · obtain ⟨-, hresult⟩ | ⟨hdevice, -⟩ := @setKey_outcome w st d _ _ _ hsame
      · rw [hresult]
      · rw [hblock] at hdevice
        cases hdevice

/-- A request that is answered with an error keeps the configuration exactly when it fails
a check, or when there is no device and the text would be the same.  It then keeps
everything, so that later requests are answered as if it had not been made. -/
theorem failed_set_keeps_iff (w : World) (st : State) (d : Dev) (rest : List UInt8)
    (failed : (handle w st (setRequest rest) d).1 ≠ ascii "ok") :
    (ConfigKept st d (handle w st (setRequest rest) d).2 ↔ SetHarmless st rest) ∧
    (SetHarmless st rest → (handle w st (setRequest rest) d).2 = (st, d)) := by
  refine ⟨⟨fun hkept => ?_, fun h => ?_⟩, SetHarmless.unchanged⟩
  · by_contra hharm
    unfold SetHarmless at hharm
    push Not at hharm
    obtain ⟨hrecovery, hasked, hdiffers⟩ := hharm
    obtain ⟨⟨key, text⟩, htext⟩ := Option.ne_none_iff_exists'.mp hasked
    rw [handle_setRequest, if_neg hrecovery] at failed hkept
    obtain ⟨hblock, hresult⟩ | ⟨-, after, ⟨-, hresult⟩ | ⟨-, -, hresult⟩⟩ :=
      @setKey_outcome w st d _ _ _ htext
    · rw [hresult] at hkept
      have hsame : text = st.overrides := hkept.overrides
      exact hdiffers hblock key (by rw [htext, hsame])
    · rw [hresult] at hkept
      have hnext : st.cfgGen + 1 = st.cfgGen := hkept.generation
      exact absurd hnext (by simp)
    · rw [hresult] at failed
      exact failed rfl
  · rw [h.unchanged]
    exact .refl st d

/-- The sample service refuses a request without a value. -/
theorem failed_set_keeps_iff_usage : ∃ st d,
    boot World.faultless true samplePublic (Dev.fresh sampleVolume) = (st, d) ∧
      (handle World.faultless st (setRequest (ascii "hostname")) d).2 = (st, d) := by
  obtain ⟨st, d, hboot, hrunning, -⟩ := sampleVolume_settings
  have hnone : setText st.overrides (ascii "hostname") = none := rfl
  obtain ⟨reply, hrefused, herror⟩ := @setKey_refused World.faultless st d (ascii "hostname") hnone
  refine ⟨st, d, hboot, (failed_set_keeps_iff World.faultless st d (ascii "hostname") ?_).2
    (.inr (.inl hnone))⟩
  rw [handle_setRequest, if_neg (by rw [hrunning]; decide), hrefused]
  exact herror

/-- The block write fails: the request is answered with an error, and the value is changed. -/
theorem failed_set_changes : ∃ st d,
    boot World.faultless true samplePublic (Dev.fresh sampleVolume) = (st, d) ∧
      (handle (writeFails d.writes) st (setRequest (ascii "hostname box")) d).1 = ascii "err: io" ∧
      lookup st (ascii "hostname") = some (ascii "redoubt-dev-01") ∧
      lookup (handle (writeFails d.writes) st (setRequest (ascii "hostname box")) d).2.1
        (ascii "hostname") =
        some (ascii "box") := by
  obtain ⟨st, d, hboot, hrunning, hblock, hoverrides, -⟩ := sampleVolume_settings
  have hfails : (writeFails d.writes).write d.writes ≠ none := by simp [writeFails]
  obtain ⟨⟨key, text⟩, htext⟩ : ∃ asked, setText st.overrides (ascii "hostname box") = some asked :=
    Option.isSome_iff_exists.mp (by rw [hoverrides]; decide +kernel)
  have hlookup : (assignments text.val).lookup (ascii "hostname") = some (ascii "box") := by
    have hcomputed : ((setText factoryConfig (ascii "hostname box")).bind fun asked =>
        (assignments asked.2.val).lookup (ascii "hostname")) = some (ascii "box") := by decide +kernel
    rw [← hoverrides, htext] at hcomputed
    exact hcomputed
  have hbefore : (assignments factoryConfig.val).lookup (ascii "hostname") =
      some (ascii "redoubt-dev-01") := by
    decide +kernel
  refine ⟨st, d, hboot, ?_⟩
  rw [handle_setRequest, if_neg (by rw [hrunning]; decide)]
  obtain ⟨hnone, -⟩ | ⟨-, after, ⟨-, hresult⟩ | ⟨hdone, -⟩⟩ :=
    @setKey_outcome (writeFails d.writes) st d _ _ _ htext
  · rw [hblock] at hnone
    cases hnone
  · rw [hresult, lookup_eq, lookup_eq, hoverrides, hbefore, Option.some_or]
    refine ⟨rfl, rfl, ?_⟩
    dsimp only
    rw [hlookup, Option.some_or]
  · exact absurd hdone hfails

end Redoubt.Storage
