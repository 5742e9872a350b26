import Redoubt.Storage.AppStore
import Redoubt.Storage.TextLaws

/-!
# What a request may change

Every request writes in one region of the disk and perhaps one audit record in the end.
`handle_frame` says so once for all requests, together with what is left of the state.
-/

namespace Redoubt.Storage

open Redoubt.Foundation Redoubt.Crypto

/-! ### Requests -/

def setRequest (rest : List UInt8) : Request := .config (ascii "set " ++ rest)

def installRequest : Request := .config (ascii "install-app")

def removeRequest (name : List UInt8) : Request := .config (ascii "remove-app " ++ name)

section Requests

variable {w : World} {st : State} {d : Dev}

theorem handle_setRequest (rest : List UInt8) : handle w st (setRequest rest) d =
    if st.recovery then (ascii "err: recovery mode is read-only", st, d) else setKey w st rest d := by
  unfold handle setRequest handleConfig
  dsimp only
  rw [stripPrefix_append]

theorem handle_installRequest : handle w st installRequest d = installApp w st d := by
  have hset : stripPrefix (ascii "install-app") (ascii "set ") = none := by decide
  unfold handle installRequest handleConfig
  dsimp only
  rw [hset]
  dsimp only
  rw [if_neg (by decide), if_pos rfl]

/-- The text of a removal is no other command. -/
theorem removeRequest_text (name : List UInt8) :
    stripPrefix (ascii "remove-app " ++ name) (ascii "set ") = none ∧
      ascii "remove-app " ++ name ≠ ascii "begin-update" ∧
      ascii "remove-app " ++ name ≠ ascii "install-app" := by
  have hfirst : ∀ {other : List UInt8}, other.head? ≠ some 114 → ascii "remove-app " ++ name ≠ other := by
    rintro other hother rfl
    exact hother rfl
  have hlen : (ascii "set ").length ≤ (ascii "remove-app ").length := by decide
  refine ⟨?_, hfirst (by decide), hfirst (by decide)⟩
  rw [stripPrefix, List.take_append_of_le_length hlen]
  exact if_neg (by decide)

theorem handle_removeRequest (name : List UInt8) :
    handle w st (removeRequest name) d = removeApp w st (trim name) d := by
  obtain ⟨hset, hupdate, hinstall⟩ := removeRequest_text name
  unfold handle removeRequest handleConfig
  dsimp only
  rw [hset]
  dsimp only
  rw [if_neg hupdate, if_neg hinstall, stripPrefix_append]

/-- Where a request is passed on to. -/
theorem handle_dispatch (req : Request) :
    (∃ text, req = .query text) ∨ (∃ rest, req = setRequest rest) ∨ req = beginUpdate ∨
      req = installRequest ∨ (∃ name, req = removeRequest name) ∨
      ∀ w st d, ∃ reply, handle w st req d = (reply, st, d) := by
  cases req with
  | query text => exact .inl ⟨text, rfl⟩
  | config text =>
      refine .inr ?_
      unfold handle handleConfig
      dsimp only
      cases hset : stripPrefix text (ascii "set ") with
      | some rest => exact .inl ⟨rest, congrArg Request.config (eq_append_of_stripPrefix hset)⟩
      | none =>
          dsimp only
          by_cases hupdate : text = ascii "begin-update"
          · exact .inr (.inl (congrArg Request.config hupdate))
          by_cases hinstall : text = ascii "install-app"
          · exact .inr (.inr (.inl (congrArg Request.config hinstall)))
          simp only [if_neg hupdate, if_neg hinstall]
          cases hremove : stripPrefix text (ascii "remove-app ") with
          | some name =>
              exact .inr (.inr
                (.inr (.inl ⟨name, congrArg Request.config (eq_append_of_stripPrefix hremove)⟩)))
          | none => exact .inr (.inr (.inr (.inr fun _ _ _ => ⟨_, rfl⟩)))

end Requests

/-! ### Queries -/

section Queries

variable {w : World} {st : State} {d : Dev}

/-- Looking an application up changes the workspace and the mark of what is in it. -/
theorem cacheApp_onlyRead (name : List UInt8) : ∃ entry mid after,
    cacheApp w st name d = (entry, mid, after) ∧ st.Scratched mid ∧ d.OnlyRead after := by
  unfold cacheApp
  cases bestApp st name with
  | none => exact ⟨none, st, d, rfl, .refl st, .refl⟩
  | some entry =>
      dsimp only
      split_ifs
      · exact ⟨st.cachedApp, st, d, rfl, .refl st, .refl⟩
      · exact ⟨none, st, d, rfl, .refl st, .refl⟩
      · obtain ⟨out, after, honly, hload, -⟩ :=
          validateAndLoadApp_eq w st.volKey entry.slot st.pubkey st.workspace d
        rw [hload]
        cases (appSeen w st.volKey st.pubkey entry.slot d).map (·.1) with
        | none => exact ⟨none, _, after, rfl, ⟨out, st.cachedApp, rfl⟩, honly⟩
        | some loaded =>
            dsimp only
            split_ifs
            · exact ⟨none, _, after, rfl, ⟨out, st.cachedApp, rfl⟩, honly⟩
            · exact ⟨some loaded, _, after, rfl, ⟨out, some loaded, rfl⟩, honly⟩

theorem readAuditRecord_onlyRead (seq : UInt64) : d.OnlyRead (readAuditRecord w st seq d).2 := by
  have hread := brSector_onlyRead w d (auditStartLba + seq.toNat)
  unfold readAuditRecord
  split_ifs
  · exact .refl
  · exact .refl
  · generalize brSector w d (auditStartLba + seq.toNat) = result at hread ⊢
    obtain ⟨_ | sec, after⟩ := result
    · exact hread
    · exact hread

theorem handleAppQuery_onlyRead (req : List UInt8) : ∃ reply mid after,
    handleAppQuery w st req d = (reply, mid, after) ∧ st.Scratched mid ∧ d.OnlyRead after := by
  have hinfo : ∀ name, ∃ reply mid after,
      appInfo w st name d = (reply, mid, after) ∧ st.Scratched mid ∧ d.OnlyRead after := fun name => by
    obtain ⟨entry, mid, after, hcache, hquiet⟩ := @cacheApp_onlyRead w st d name
    unfold appInfo
    rw [hcache]
    cases entry <;> exact ⟨_, mid, after, rfl, hquiet⟩
  have hchunk : ∀ name off, ∃ reply mid after,
      appChunk w st name off d = (reply, mid, after) ∧ st.Scratched mid ∧ d.OnlyRead after :=
        fun name off => by
    obtain ⟨entry, mid, after, hcache, hquiet⟩ := @cacheApp_onlyRead w st d name
    unfold appChunk
    rw [hcache]
    cases entry <;> exact ⟨_, mid, after, rfl, hquiet⟩
  unfold handleAppQuery
  repeat' split
  all_goals first
    | exact ⟨_, st, d, rfl, .refl st, .refl⟩
    | exact hinfo _
    | exact hchunk _ _

/-- A query logs a line, or only reads. -/
theorem handleQuery_cases (req : List UInt8) :
    (∃ text, stripPrefix req (ascii "log ") = some text ∧ handleQuery w st req d =
        (ascii "ok", (auditRaw w st (trim text) d).1, (auditRaw w st (trim text) d).2)) ∨
      stripPrefix req (ascii "log ") = none ∧ ∃ reply mid after,
        handleQuery w st req d = (reply, mid, after) ∧ st.Scratched mid ∧ d.OnlyRead after := by
  unfold handleQuery
  cases hlog : stripPrefix req (ascii "log ") with
  | some text => exact .inl ⟨text, rfl, rfl⟩
  | none =>
      refine .inr ⟨rfl, ?_⟩
      dsimp only
      repeat' split
      all_goals first
        | exact ⟨_, st, d, rfl, .refl st, .refl⟩
        | exact ⟨_, st, _, rfl, .refl st, readAuditRecord_onlyRead _⟩
        | exact handleAppQuery_onlyRead req

end Queries

/-! ### Changing requests -/

/-- The pinned key has signed the name, version, length and digest of this entry. -/
def AppEntry.Signed (pubkey : Bytes 32) (entry : AppEntry) : Prop :=
  appNameValid entry.label = true ∧ Ed25519.accepts pubkey
    (appSigningMessage entry.label entry.version entry.payloadLen entry.payloadSha).val
      entry.signature = true

section Changes

variable {w : World} {st : State} {d : Dev}

theorem persistOverrides_cases : ∃ ok gen after,
    persistOverrides w st d = (ok, { st with cfgGen := gen }, after) ∧
      d.WroteIn (· = configLba) after := by
  unfold persistOverrides
  split_ifs
  · exact ⟨false, st.cfgGen, d, rfl, .refl⟩
  · exact ⟨_, _, _, rfl, bw_one_wroteIn ..⟩

/-- A setting changes the overrides, and writes the configuration sector. -/
theorem setKey_cases (rest : List UInt8) : ∃ reply overrides gen after, d.WroteIn (· = configLba) after ∧
    Ends w (setKey w st rest d) reply { st with overrides, cfgGen := gen } after := by
  have hrefused : ∀ reply, setKey w st rest d = (reply, st, d) →
      ∃ reply overrides gen after, d.WroteIn (· = configLba) after ∧
        Ends w (setKey w st rest d) reply { st with overrides, cfgGen := gen } after :=
    fun reply hreply => ⟨reply, st.overrides, st.cfgGen, d, .refl, .inl hreply⟩
  cases heq : rest.findIdx? (· == 32) with
  | none =>
      refine hrefused (ascii "err: usage set <k> <v>") ?_
      unfold setKey
      rw [heq]
  | some index =>
      by_cases hbounds : (trim (rest.take index)).isEmpty ∨ 24 < (trim (rest.take index)).length ∨
          24 < (trim (rest.drop (index + 1))).length
      · refine hrefused (ascii "err: bounds") ?_
        unfold setKey
        rw [heq]
        exact if_pos hbounds
      · by_cases hroom : (dropKey st.overrides.val (trim (rest.take index)) ++ trim (rest.take index) ++
            [61] ++ trim (rest.drop (index + 1)) ++ [10]).length ≤ cfgTextMax
        · obtain ⟨ok, gen, after, hpersist, hwrote⟩ :=
            @persistOverrides_cases w { st with overrides := ⟨_, hroom⟩ } d
          unfold setKey
          rw [heq]
          dsimp only
          rw [if_neg hbounds, dif_pos hroom, hpersist]
          cases ok with
          | true => exact ⟨_, _, gen, after, hwrote, .inr ⟨_, rfl⟩⟩
          | false => exact ⟨_, _, gen, after, hwrote, .inl rfl⟩
        · refine hrefused (ascii "err: full") ?_
          unfold setKey
          rw [heq]
          dsimp only
          rw [if_neg hbounds, dif_neg hroom]

theorem admission_running {a : Admission} (h : admission w st d = some a) : st.recovery = false := by
  unfold admission at h
  split_ifs at h with _ hrecovery
  exact Bool.eq_false_iff.mpr hrecovery

/-- An installation writes in the slot it has chosen, and lists what it found signed. -/
theorem installApp_frame : ∃ reply out cached apps written,
    d.WroteIn (fun lba => ∃ a, admission w st d = some a ∧ AppOwns a.slot lba) written ∧
      Ends w (installApp w st d) reply { st with workspace := out, cachedApp := cached, apps } written ∧
      ∀ entry ∈ apps, entry ∈ st.apps ∨ st.recovery = false ∧ entry.Signed st.pubkey := by
  obtain ⟨-, reply, out, after, hresult, honly, -⟩ | ⟨a, out, hadmission, hadmitted, houtcome⟩ :=
    @installApp_cases w st d
  · exact ⟨reply, out, st.cachedApp, st.apps, after, honly.wroteIn, .inl hresult, fun _ => .inl⟩
  · have hinside : ∀ entry ∈ installWrites st.volKey a.slot a.pkg a.lba, AppOwns a.slot entry.1 :=
      installWrites_inside hadmitted.located hadmitted.admissible
    obtain ⟨-, after, count, hmade, -, -, hresult⟩ | ⟨-, written, hmade, hresult⟩ := houtcome
    · exact ⟨_, out, st.cachedApp, st.apps, after, hmade.wroteIn fun entry hentry =>
        ⟨a, hadmission, hinside entry (List.mem_of_mem_take hentry)⟩, .inl hresult, fun _ => .inl⟩
    · refine ⟨_, out, none, storedApps st a.slot a.pkg, written, hmade.wroteIn fun entry hentry =>
        ⟨a, hadmission, hinside entry hentry⟩, .inr ⟨_, hresult⟩, fun entry hentry => ?_⟩
      rcases List.mem_append.mp hentry with hold | hnew
      · exact .inl (List.mem_of_mem_filter hold)
      · rw [List.mem_singleton.mp hnew]
        exact .inr ⟨admission_running hadmission, hadmitted.admissible.named, hadmitted.admissible.signed⟩

/-- A header sector of a slot listed under a name. -/
def ListedHeader (st : State) (name : List UInt8) (lba : Nat) : Prop :=
  ∃ entry ∈ st.apps, entry.label = name ∧ appSlotLba entry.slot = some lba

theorem removeWrites_listed {name : List UInt8} {write : Nat × Sector}
    (h : write ∈ removeWrites st name) :
    ListedHeader st name write.1 := by
  unfold removeWrites headerClears at h
  rw [List.mem_filterMap] at h
  obtain ⟨entry, hentry, hwrite⟩ := h
  rw [List.mem_filter, sameAppName_iff] at hentry
  obtain ⟨lba, hlba, rfl⟩ := Option.map_eq_some_iff.mp hwrite
  exact ⟨entry, hentry.1, hentry.2, hlba⟩

theorem removeApp_frame (name : List UInt8) : ∃ reply cached apps written,
    d.WroteIn (ListedHeader st name) written ∧
      Ends w (removeApp w st name d) reply { st with cachedApp := cached, apps } written ∧
      ∀ entry ∈ apps, entry ∈ st.apps := by
  obtain ⟨-, reply, after, hresult, hmade, -⟩ | ⟨-, houtcome⟩ := @removeApp_cases w st d name
  · exact ⟨reply, st.cachedApp, st.apps, after,
      hmade.wroteIn fun entry hentry => absurd hentry List.not_mem_nil, .inl hresult, fun _ => id⟩
  · obtain ⟨-, after, count, hmade, -, -, hresult⟩ | ⟨-, written, hmade, hresult⟩ := houtcome
    · exact ⟨_, st.cachedApp, st.apps, after,
        hmade.wroteIn fun entry hentry => removeWrites_listed (List.mem_of_mem_take hentry), .inl hresult,
        fun _ => id⟩
    · exact ⟨_, none, _, written, hmade.wroteIn fun entry hentry => removeWrites_listed hentry,
        .inr ⟨_, hresult⟩, fun _ => List.mem_of_mem_filter⟩

/-- The window of the target slot, and the superblock. -/
def UpdateSector (st : State) (lba : Nat) : Prop :=
  InWindow (updateTarget st.active).hdrLba 1000 lba ∨ lba = superblockLba

theorem runUpdate_frame : ∃ reply mid written active generation,
    { st with active, generation }.Scratched mid ∧ d.WroteIn (UpdateSector st) written ∧
      Ends w (runUpdate w st d) reply mid written := by
  obtain ⟨reply, mid, written, houtcome, hends⟩ := @runUpdate_cases w st d
  cases houtcome with
  | refused _ scratched copied =>
      exact ⟨reply, mid, written, _, _, scratched, copied.inWindow.mono fun _ => .inl, hends⟩
  | landed copy _ _ _ superblock answer =>
      have hwrote : d.WroteIn (UpdateSector st) written := (copy.inWindow.mono fun _ => .inl).trans
        (superblock.wroteIn fun entry hentry => .inr (congrArg Prod.fst (List.mem_singleton.mp hentry)))
      obtain ⟨-, hscratched⟩ | ⟨-, hscratched, -⟩ := answer
      · exact ⟨reply, mid, written, _, _, hscratched, hwrote, hends⟩
      · exact ⟨reply, mid, written, _, _, hscratched, hwrote, hends⟩

end Changes

/-! ### The frame of a request -/

/-- Number and link of the next record. -/
abbrev Cursor := Nat × Bytes 32

def State.cursor (st : State) : Cursor := (st.auditSeq.toNat, st.auditPrev)

/-- The configuration in memory, with the device and the key of its sector. -/
def State.config (st : State) : Bool × Bytes 32 × UInt64 × ConfigText :=
  (st.block, st.volKey, st.cfgGen, st.overrides)

/-- What a request leaves of the state: only an update changes slot and generation, only a
setting the configuration, and only an installation lists something new. -/
structure Leaves (req : Request) (st after : State) : Prop where
  system : ∃ active generation, after.system = { st.system with active, generation }
  config : (∀ rest, req ≠ setRequest rest) → after.config = st.config
  apps : ∀ entry ∈ after.apps, entry ∈ st.apps ∨
    req = installRequest ∧ st.recovery = false ∧ entry.Signed st.pubkey

theorem State.Scratched.leaves {req : Request} {st mid : State} (h : st.Scratched mid) :
    Leaves req st mid := by
  obtain ⟨out, cached, rfl⟩ := h
  exact ⟨⟨_, _, rfl⟩, fun _ => rfl, fun _ => .inl⟩

/-- The sectors outside the audit log that a request may write. -/
def Writes (w : World) (st : State) (d : Dev) (req : Request) (lba : Nat) : Prop :=
  (∃ rest, req = setRequest rest) ∧ st.recovery = false ∧ lba = configLba ∨
    req = beginUpdate ∧ UpdateSector st lba ∨
    req = installRequest ∧ (∃ a, admission w st d = some a ∧ AppOwns a.slot lba) ∨
    ∃ name, req = removeRequest name ∧ ListedHeader st (trim name) lba

/-- Requests that may append an audit record. -/
def Logs (req : Request) : Prop :=
  (∃ text rest, req = .query text ∧ stripPrefix text (ascii "log ") = some rest) ∨
    (∃ rest, req = setRequest rest) ∨ req = beginUpdate ∨ req = installRequest ∨
    ∃ name, req = removeRequest name

/-- A result that is reached by these writes, and perhaps one audit record after them. -/
def Frame (w : World) (st : State) (d : Dev) (req : Request) (result : List UInt8 × State × Dev) : Prop :=
  ∃ reply mid written, Ends w result reply mid written ∧ (Logs req ∨ result = (reply, mid, written)) ∧
    mid.cursor = st.cursor ∧ Leaves req st mid ∧ d.WroteIn (Writes w st d req) written

section Frames

variable {w : World} {st : State} {d : Dev} {req : Request}

theorem handle_frame (req : Request) : Frame w st d req (handle w st req d) := by
  have hquiet : ∀ {reply mid after}, handle w st req d = (reply, mid, after) → st.Scratched mid →
      d.OnlyRead after → Frame w st d req (handle w st req d) := by
    rintro reply _ after hresult ⟨out, cached, rfl⟩ honly
    exact ⟨reply, _, after, .inl hresult, .inr hresult, rfl, State.Scratched.leaves ⟨out, cached, rfl⟩,
      honly.wroteIn⟩
  obtain ⟨text, rfl⟩ | ⟨rest, rfl⟩ | rfl | rfl | ⟨name, rfl⟩ | hrefused := handle_dispatch req
  · obtain ⟨rest, hrest, hresult⟩ | ⟨-, reply, mid, after, hresult, hscratched, honly⟩ :=
      @handleQuery_cases w st d text
    · exact ⟨_, st, d, .inr ⟨_, hresult⟩, .inl (.inl ⟨text, rest, rfl, hrest⟩), rfl,
        (State.Scratched.refl st).leaves, .refl⟩
    · exact hquiet hresult hscratched honly
  · by_cases hrecovery : st.recovery = true
    · exact hquiet ((handle_setRequest rest).trans (if_pos hrecovery)) (.refl st) .refl
    · obtain ⟨reply, overrides, gen, after, hwrote, hends⟩ := @setKey_cases w st d rest
      rw [handle_setRequest, if_neg hrecovery]
      exact ⟨reply, _, after, hends, .inl (.inr (.inl ⟨rest, rfl⟩)), rfl,
        ⟨⟨_, _, rfl⟩, fun hother => absurd rfl (hother rest), fun _ => .inl⟩,
        hwrote.mono fun lba hlba => .inl ⟨⟨rest, rfl⟩, Bool.eq_false_iff.mpr hrecovery, hlba⟩⟩
  · obtain ⟨reply, mid, written, active, generation, ⟨out, cached, rfl⟩, hwrote, hends⟩ :=
      @runUpdate_frame w st d
    rw [handle_beginUpdate]
    exact ⟨reply, _, written, hends, .inl (.inr (.inr (.inl rfl))), rfl,
      ⟨⟨_, _, rfl⟩, fun _ => rfl, fun _ => .inl⟩, hwrote.mono fun lba hlba => .inr (.inl ⟨rfl, hlba⟩)⟩
  · obtain ⟨reply, out, cached, apps, written, hwrote, hends, happs⟩ := @installApp_frame w st d
    rw [handle_installRequest]
    exact ⟨reply, _, written, hends, .inl (.inr (.inr (.inr (.inl rfl)))), rfl,
      ⟨⟨_, _, rfl⟩, fun _ => rfl, fun entry hentry => (happs entry hentry).imp_right fun hnew =>
        ⟨rfl, hnew⟩⟩,
      hwrote.mono fun lba hlba => .inr (.inr (.inl ⟨rfl, hlba⟩))⟩
  · obtain ⟨reply, cached, apps, written, hwrote, hends, happs⟩ := @removeApp_frame w st d (trim name)
    rw [handle_removeRequest]
    exact ⟨reply, _, written, hends, .inl (.inr (.inr (.inr (.inr ⟨name, rfl⟩)))), rfl,
      ⟨⟨_, _, rfl⟩, fun _ => rfl, fun entry hentry => .inl (happs entry hentry)⟩,
      hwrote.mono fun lba hlba => .inr (.inr (.inr ⟨name, rfl, hlba⟩))⟩
  · obtain ⟨reply, hreply⟩ := hrefused w st d
    exact hquiet hreply (.refl st) .refl

theorem handle_leaves (req : Request) : Leaves req st (handle w st req d).2.1 := by
  obtain ⟨reply, mid, written, hends, -, -, hleaves, -⟩ := @handle_frame w st d req
  obtain ⟨seq, prev, hstate⟩ := hends.state
  rw [hstate]
  exact ⟨hleaves.system, hleaves.config, hleaves.apps⟩

/-- Everything that is written lies in the region or is the next record. -/
theorem handle_wroteIn (req : Request) :
    d.WroteIn (fun lba => Writes w st d req lba ∨ Logs req ∧ NextRecord st lba)
      (handle w st req d).2.2 := by
  obtain ⟨reply, mid, written, hends, hlogs | hresult, hcursor, -, hwrote⟩ := @handle_frame w st d req
  · have hseq : mid.auditSeq.toNat = st.auditSeq.toNat := congrArg Prod.fst hcursor
    refine (hwrote.mono fun _ => .inl).trans (hends.wroteNext.mono fun lba hlba => .inr ⟨hlogs, ?_⟩)
    unfold NextRecord at hlba ⊢
    rwa [hseq] at hlba
  · rw [hresult]
    exact hwrote.mono fun _ => .inl

/-- The sectors that a request may change. -/
def Changes (w : World) (st : State) (d : Dev) : Request → Nat → Prop
  | .query text, lba => (stripPrefix text (ascii "log ")).isSome ∧ NextRecord st lba
  | .config text, lba =>
      if (stripPrefix text (ascii "set ")).isSome then lba = configLba ∨ NextRecord st lba
      else if text = ascii "begin-update" then UpdateSector st lba ∨ NextRecord st lba
      else if text = ascii "install-app" then
        (∃ a, admission w st d = some a ∧ AppOwns a.slot lba) ∨ NextRecord st lba
      else
        match stripPrefix text (ascii "remove-app ") with
        | some name => ListedHeader st (trim name) lba ∨ NextRecord st lba
        | none => False

theorem handle_changes (req : Request) : d.WroteIn (Changes w st d req) (handle w st req d).2.2 := by
  refine (handle_wroteIn req).mono fun lba hlba => ?_
  have hset : ∀ rest, Changes w st d (setRequest rest) lba ↔ lba = configLba ∨ NextRecord st lba := by
    intro rest
    unfold Changes setRequest
    simp [stripPrefix_append]
  have hupdate : Changes w st d beginUpdate lba ↔ UpdateSector st lba ∨ NextRecord st lba := Iff.rfl
  have hinstall : Changes w st d installRequest lba ↔
      (∃ a, admission w st d = some a ∧ AppOwns a.slot lba) ∨ NextRecord st lba := Iff.rfl
  have hremove : ∀ name, Changes w st d (removeRequest name) lba ↔
      ListedHeader st (trim name) lba ∨ NextRecord st lba := by
    intro name
    obtain ⟨hset, hupdate, hinstall⟩ := removeRequest_text name
    unfold Changes removeRequest
    simp [hset, hupdate, hinstall, stripPrefix_append]
  obtain (⟨⟨rest, rfl⟩, -, hconfig⟩ | ⟨rfl, hsector⟩ | ⟨rfl, howns⟩ | ⟨name, rfl, hlisted⟩) |
    ⟨hlogs, hnext⟩ := hlba
  · exact (hset rest).mpr (.inl hconfig)
  · exact hupdate.mpr (.inl hsector)
  · exact hinstall.mpr (.inl howns)
  · exact (hremove name).mpr (.inl hlisted)
  · obtain ⟨text, rest, rfl, hrest⟩ | ⟨rest, rfl⟩ | rfl | rfl | ⟨name, rfl⟩ := hlogs
    · exact ⟨by rw [hrest]; rfl, hnext⟩
    · exact (hset rest).mpr (.inr hnext)
    · exact hupdate.mpr (.inr hnext)
    · exact hinstall.mpr (.inr hnext)
    · exact (hremove name).mpr (.inr hnext)

/-- The regions in numbers: where each request stays, beside the audit log. -/
theorem changes_cases {req : Request} {lba : Nat} (h : Changes w st d req lba) :
    AuditSector lba ∨ lba = configLba ∨ (req = beginUpdate ∧ UpdateSector st lba) ∨
      (appStartLba ≤ lba ∧ lba < stagingLba) := by
  have hslot : ∀ {slot : UInt8} {start : Nat}, appSlotLba slot = some start → ∀ sector,
      AppOwns slot sector → appStartLba ≤ sector ∧ sector < stagingLba := by
    intro slot start hstart sector howns
    have hlt := appSlotLba_lt hstart
    unfold AppOwns appStartLba appSlotSectors at howns
    unfold appSlots at hlt
    unfold appStartLba stagingLba
    omega
  cases req with
  | query => exact .inl (nextRecord_audit h.2)
  | config text =>
      unfold Changes at h
      dsimp only at h
      split_ifs at h with hset hupdate hinstall
      · rcases h with hconfig | hnext
        · exact .inr (.inl hconfig)
        · exact .inl (nextRecord_audit hnext)
      · rcases h with hsector | hnext
        · exact .inr (.inr (.inl ⟨by rw [hupdate]; rfl, hsector⟩))
        · exact .inl (nextRecord_audit hnext)
      · rcases h with ⟨a, hadmission, howns⟩ | hnext
        · exact .inr (.inr (.inr (hslot (Admitted.of_admission hadmission).located lba howns)))
        · exact .inl (nextRecord_audit hnext)
      · cases hname : stripPrefix text (ascii "remove-app ") with
        | none =>
            rw [hname] at h
            exact h.elim
        | some =>
            rw [hname] at h
            rcases h with ⟨entry, -, -, hlba⟩ | hnext
            · exact .inr (.inr (.inr (hslot hlba lba (appOwns_header hlba))))
            · exact .inl (nextRecord_audit hnext)

/-- The two slots lie between the configuration sector and the audit log. -/
theorem SlotId.owns_bounds {slot : SlotId} {lba : Nat} (h : slot.Owns lba) :
    configLba < lba ∧ lba < auditStartLba := by
  unfold SlotId.Owns at h
  cases slot <;> simp only [SlotId.hdrLba, SlotId.payloadLba, slotAHdrLba, slotAPayloadLba, slotBHdrLba,
    slotBPayloadLba, configLba, auditStartLba] at * <;> omega

theorem SlotId.owns_window {slot : SlotId} {lba : Nat} (h : InWindow slot.hdrLba 1000 lba) :
    slot.Owns lba := by
  unfold InWindow at h
  unfold SlotId.Owns
  rw [payloadLba_eq]
  omega

/-- Every sector write of a request, and so every sector that it changes, lies in the
region of the request.  The active slot and the staging area are in no region, and the
superblock only in the one of an update. -/
theorem requests_stay_in_regions (w : World) (st : State) (d : Dev) (req : Request) :
    (∀ entry ∈ madeWrites d (handle w st req d).2.2, Changes w st d req entry.1) ∧
    (∀ lba, (handle w st req d).2.2.disk lba ≠ d.disk lba → Changes w st d req lba) ∧
    (∀ slot, st.active = some slot → ∀ lba, slot.Owns lba → ¬ Changes w st d req lba) ∧
    (req ≠ beginUpdate → ¬ Changes w st d req superblockLba) ∧
    ∀ lba, stagingLba ≤ lba → ¬ Changes w st d req lba := by
  have hwrote := @handle_changes w st d req
  refine ⟨?_, fun lba hlba => ?_, fun slot hactive lba howns hchanges => ?_, fun hother hchanges => ?_,
    fun lba hlow hchanges => ?_⟩
  · obtain ⟨entries, -, hlog, hmem⟩ := hwrote
    rw [madeWrites_eq hlog]
    exact hmem
  · by_contra hsame
    exact hlba (hwrote.disk_eq hsame)
  · obtain ⟨hlow, hhigh⟩ := SlotId.owns_bounds howns
    obtain haudit | hconfig | ⟨-, hwindow | hsb⟩ | ⟨happs, -⟩ := changes_cases hchanges
    · exact SlotId.not_owns_audit howns haudit
    · exact absurd hconfig hlow.ne'
    · rw [hactive] at hwindow
      exact SlotId.not_owns_other howns (SlotId.owns_window hwindow)
    · rw [hsb] at howns
      exact superblock_not_owned slot howns
    · unfold auditStartLba at hhigh
      unfold appStartLba at happs
      omega
  · obtain haudit | hconfig | ⟨hupdate, -⟩ | ⟨happs, -⟩ := changes_cases hchanges
    · exact superblock_not_audit haudit
    · exact absurd hconfig (by decide)
    · exact hother hupdate
    · exact absurd happs (by decide)
  · unfold stagingLba at hlow
    obtain haudit | hconfig | ⟨-, hwindow | hsb⟩ | ⟨-, hhigh⟩ := changes_cases hchanges
    · unfold AuditSector auditEndLba at haudit
      omega
    · unfold configLba at hconfig
      omega
    · have hhigh := (SlotId.owns_bounds (SlotId.owns_window hwindow)).2
      unfold auditStartLba at hhigh
      omega
    · unfold superblockLba at hsb
      omega
    · unfold stagingLba at hhigh
      omega

end Frames

end Redoubt.Storage
