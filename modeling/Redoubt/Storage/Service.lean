import Redoubt.Storage.Storaged

/-!
# The storage service: requests

Every request is answered with a byte string.  Reading requests arrive on the query
endpoint, changing ones on the configuration endpoint.  Allocation is taken to succeed,
from a heap of 1 MiB of which nothing is freed.
-/

namespace Redoubt.Storage

open Redoubt.Foundation Redoubt.Crypto

/-! ### Applications -/

def sameAppName (entry : AppEntry) (name : List UInt8) : Bool :=
  entry.nameLen == name.length && entry.label == name

/-- Keep the entry with the larger version, the second one among equals. -/
def laterVersion (best : Option AppEntry) (entry : AppEntry) : Option AppEntry :=
  match best with
  | none => some entry
  | some old => if old.version ≤ entry.version then some entry else some old

/-- The entry of this name with the largest version; the last one among equals. -/
def bestApp (st : State) (name : List UInt8) : Option AppEntry :=
  (st.apps.filter (sameAppName · name)).foldl laterVersion none

/-- Number of different names. -/
def countNames : List AppEntry → List AppEntry → Nat
  | _, [] => 0
  | seen, entry :: rest =>
      (if seen.any (sameAppName · entry.label) then 0 else 1) + countNames (seen ++ [entry]) rest

def appUniqueCount (st : State) : Nat := countNames [] st.apps

/-- The entries that are the best of their name. -/
def appAtIndex (st : State) (want : Nat) : Option AppEntry :=
  (st.apps.filter fun entry => (bestApp st entry.label).map (·.slot) == some entry.slot)[want]?

/-- Bring the best version of a name into the workspace unless it is there already. -/
def cacheApp (w : World) (st : State) (name : List UInt8) (d : Dev) :
    Option AppEntry × State × Dev :=
  match bestApp st name with
  | none => (none, st, d)
  | some entry =>
      if st.cachedApp.map (fun cached => cached.slot == entry.slot && cached.version == entry.version)
          = some true then (st.cachedApp, st, d)
      else if !st.block then (none, st, d)
      else
        match validateAndLoadApp w st.volKey entry.slot st.pubkey st.workspace d with
        | (none, out, d) => (none, { st with workspace := out }, d)
        | (some loaded, out, d) =>
            let st := { st with workspace := out }
            if loaded.version ≠ entry.version ∨ loaded.payloadSha ≠ entry.payloadSha then
              (none, st, d)
            else (some loaded, { st with cachedApp := some loaded }, d)

/-- Name and offset separated by the last blank. -/
def parseAppChunkReq (rest : List UInt8) : Option (List UInt8 × Nat) := do
  let back ← rest.reverse.findIdx? (· == 32)
  let split := rest.length - 1 - back
  let off ← parseNum (trim (rest.drop (split + 1)))
  some (trim (rest.take split), off.toNat)

def errNoApp : List UInt8 := ascii "err: no app"

def appInfo (w : World) (st : State) (name : List UInt8) (d : Dev) : List UInt8 × State × Dev :=
  match cacheApp w st name d with
  | (some entry, st, d) =>
      (ascii "len " ++ pushNum (UInt64.ofNat entry.payloadLen) ++ ascii " ver " ++
        pushNum entry.version, st, d)
  | (none, st, d) => (errNoApp, st, d)

def appHash (st : State) (name : List UInt8) : List UInt8 :=
  match bestApp st name with
  | some entry => entry.payloadSha.val
  | none => errNoApp

/-- Forty bytes from an offset, zero-padded; nothing past the end. -/
def window40 (bytes : List UInt8) (off : Nat) : List UInt8 :=
  if bytes.length ≤ off then []
  else
    let part := (bytes.drop off).take 40
    part ++ List.replicate (40 - part.length) 0

def appSig (st : State) (name : List UInt8) (off : Nat) : List UInt8 :=
  match bestApp st name with
  | none => errNoApp
  | some entry => window40 entry.signature.val off

def appChunk (w : World) (st : State) (name : List UInt8) (off : Nat) (d : Dev) :
    List UInt8 × State × Dev :=
  match cacheApp w st name d with
  | (none, st, d) => (errNoApp, st, d)
  | (some entry, st, d) => (window40 (st.workspace.read 0 entry.payloadLen) off, st, d)

def targetAppSlot (st : State) (name : List UInt8) : Option UInt8 :=
  match bestApp st name with
  | some current => appPeerSlot current.slot
  | none =>
      [0, 2, 4, 6].find? fun first =>
        !st.apps.any fun app => app.slot == first || app.slot == first + 1

/-- Read whole sectors into the workspace in chunks. -/
def readInto (w : World) (base total : Nat) : Nat → Nat → Buffer → Dev → Bool × Buffer × Dev
  | 0, _, out, d => (true, out, d)
  | fuel + 1, done, out, d =>
      if done < total then
        let take := min (total - done) (chunkSectors * sectorSize)
        match br w d (base + done / sectorSize) (take / sectorSize) with
        | (none, d) => (false, out, d)
        | (some data, d) => readInto w base total fuel (done + take) (out.write done data) d
      else (true, out, d)

/-- Write whole sectors from the workspace in chunks. -/
def writeFrom (w : World) (base total : Nat) (buf : Buffer) : Nat → Nat → Dev → Bool × Dev
  | 0, _, d => (true, d)
  | fuel + 1, wrote, d =>
      if wrote < total then
        let take := min (total - wrote) (chunkSectors * sectorSize)
        let data := toSectors (take / sectorSize) (buf.read wrote take)
        match bw w d (base + wrote / sectorSize) data with
        | (false, d) => (false, d)
        | (true, d) => writeFrom w base total buf fuel (wrote + take) d
      else (true, d)

/-- Write a verified package into an application slot: the old header is cleared first
and the new one published last. -/
def storeApp (w : World) (st : State) (pkg : AppPackage) (slot : UInt8) (slotLba bytes : Nat)
    (d : Dev) : List UInt8 × State × Dev :=
  let payloadLen := pkg.payload.length
  let raw := st.workspace
  let raw := raw.write 0 (raw.read appPkgHeader (bytes - appPkgHeader))
  let padded := (payloadLen + sectorSize - 1) / sectorSize * sectorSize
  let raw := raw.write payloadLen (List.replicate (padded - payloadLen) 0)
  match writeAppHeader slot pkg.label pkg.version (raw.read 0 payloadLen) pkg.signature with
  | none => (ascii "err: malformed app", { st with workspace := raw }, d)
  | some hdr =>
      let ct := ChaCha20.xorStream st.volKey 0 (appNonce slot pkg.version) (raw.read 0 payloadLen)
      let raw := raw.write 0 ct
      let hdr := hdr.splice 160 (appHeaderMac st.volKey hdr ct) appTag_inside
      let st := { st with workspace := raw }
      match bw w d slotLba [Bytes.zeros 512] with
      | (false, d) => (ascii "err: app io", st, d)
      | (true, d) =>
          match writeFrom w (slotLba + 1) padded raw padded 0 d with
          | (false, d) => (ascii "err: app io", st, d)
          | (true, d) =>
              match bw w d slotLba [hdr] with
              | (false, d) => (ascii "err: app io", st, d)
              | (true, d) =>
                  let entry : AppEntry := { pkg with slot, payloadLen }
                  let st :=
                    { st with
                      apps := st.apps.filter (·.slot ≠ slot) ++ [entry]
                      cachedApp := none }
                  let (st, d) := auditRaw w st ((ascii "app-install " ++ entry.label).take 38) d
                  (ascii "ok app " ++ entry.label ++ ascii " v" ++ pushNum entry.version, st, d)

/-- Checks of a package that was read into the workspace. -/
def admitApp (w : World) (st : State) (bytes : Nat) (d : Dev) : List UInt8 × State × Dev :=
  match parseAppStagePackage (st.workspace.read 0 bytes) with
  | none => (ascii "err: malformed app", st, d)
  | some pkg =>
      if !appNameValid pkg.label ∨ sha256 pkg.payload ≠ pkg.payloadSha then
        (ascii "err: BAD PACKAGE", st, d)
      else
        let signed := appSigningMessage pkg.label pkg.version pkg.payload.length pkg.payloadSha
        if !Ed25519.accepts st.pubkey signed.val pkg.signature then
          (ascii "err: BAD SIGNATURE", st, d)
        else if (bestApp st pkg.label).any fun old => pkg.version ≤ old.version then
          (ascii "err: stale version", st, d)
        else
          match targetAppSlot st pkg.label with
          | none => (ascii "err: app store full", st, d)
          | some slot =>
              match appSlotLba slot with
              | none => (ascii "err: internal", st, d)
              | some slotLba => storeApp w st pkg slot slotLba bytes d

def installApp (w : World) (st : State) (d : Dev) : List UInt8 × State × Dev :=
  if !st.block then (ascii "err: no volume", st, d)
  else if st.recovery then (ascii "err: recovery mode", st, d)
  else
    match brSector w d stagingLba with
    | (none, d) => (ascii "err: staging io", st, d)
    | (some head, d) =>
        let packageLen := (head.slice 12 4 packageLen_inside).toU32.toNat
        if head.slice 0 8 magic_inside ≠ appPkgMagic ∨ head.byte 8 version_inside ≠ appFormatVersion then
          (ascii "err: no app package", st, d)
        else if packageLen = 0 ∨ appStageCap < packageLen then (ascii "err: malformed app", st, d)
        else
          let bytes := appPkgHeader + packageLen
          let total := (bytes + sectorSize - 1) / sectorSize * sectorSize
          match readInto w stagingLba total total 0 st.workspace d with
          | (false, out, d) => (ascii "err: staging io", { st with workspace := out }, d)
          | (true, out, d) => admitApp w { st with workspace := out } bytes d

/-- Clear the headers of these entries; tells whether there was one, or that a write failed. -/
def clearHeaders (w : World) : List AppEntry → Bool → Dev → Option Bool × Dev
  | [], removed, d => (some removed, d)
  | entry :: rest, removed, d =>
      match appSlotLba entry.slot with
      | none => clearHeaders w rest removed d
      | some lba =>
          match bw w d lba [Bytes.zeros 512] with
          | (false, d) => (none, d)
          | (true, d) => clearHeaders w rest true d

def removeApp (w : World) (st : State) (name : List UInt8) (d : Dev) : List UInt8 × State × Dev :=
  if !appNameValid name then (ascii "err: invalid app", st, d)
  else if !st.block then (ascii "err: no volume", st, d)
  else
    match clearHeaders w (st.apps.filter (sameAppName · name)) false d with
    | (none, d) => (ascii "err: app io", st, d)
    | (some false, d) => (errNoApp, st, d)
    | (some true, d) =>
        let st := { st with apps := st.apps.filter (!sameAppName · name), cachedApp := none }
        let (st, d) := auditRaw w st (ascii "app-remove " ++ name) d
        (ascii "ok removed", st, d)

/-! ### Configuration -/

/-- The generation grows even when the write fails. -/
def persistOverrides (w : World) (st : State) (d : Dev) : Bool × State × Dev :=
  if !st.block then (false, st, d)
  else
    let st := { st with cfgGen := st.cfgGen + 1 }
    let (ok, d) := bw w d configLba [writeConfig st.cfgGen st.overrides st.volKey]
    (ok, st, d)

/-- The overrides without this key. -/
def dropKey (overrides key : List UInt8) : List UInt8 :=
  (lines overrides).flatMap fun line =>
    let line := trim line
    if line.isEmpty then []
    else if (splitKv line).map (·.1) = some key then []
    else line ++ [10]

def setKey (w : World) (st : State) (rest : List UInt8) (d : Dev) : List UInt8 × State × Dev :=
  match rest.findIdx? (· == 32) with
  | none => (ascii "err: usage set <k> <v>", st, d)
  | some eq =>
      let key := trim (rest.take eq)
      let value := trim (rest.drop (eq + 1))
      if key.isEmpty ∨ 24 < key.length ∨ 24 < value.length then (ascii "err: bounds", st, d)
      else
        let text := dropKey st.overrides.val key ++ key ++ [61] ++ value ++ [10]
        if h : text.length ≤ cfgTextMax then
          match persistOverrides w { st with overrides := ⟨text, h⟩ } d with
          | (true, st, d) =>
              let (st, d) := auditRaw w st (ascii "cfg-set " ++ key) d
              (ascii "ok", st, d)
          | (false, st, d) => (ascii "err: io", st, d)
        else (ascii "err: full", st, d)

def lookup (st : State) (key : List UInt8) : Option (List UInt8) :=
  match (lines st.overrides.val).findSome? fun line => lineValue key (trim line) with
  | some value => some value
  | none => findKv st.payload key

def slotStatusText (st : State) : List UInt8 :=
  match st.recovery, st.active with
  | true, _ => ascii "recovery"
  | false, some slot => [slot.letter] ++ ascii " gen " ++ pushNum st.generation
  | false, none => ascii "unknown"

/-! ### Updates -/

/-- Name the new slot in the superblock, unless the generation is not newer. -/
def commitSlot (w : World) (st : State) (newActive : SlotId) (gen : UInt64) (d : Dev) :
    Bool × State × Dev :=
  if st.active.isSome ∧ gen ≤ st.generation then (false, st, d)
  else
    -- the other generation is kept when another slot was active
    let kept := if st.active.any (· ≠ newActive) then st.generation else 0
    let genA := if newActive = .a then gen else kept
    let genB := if newActive = .b then gen else kept
    match bw w d superblockLba [writeSuperblock (some newActive) genA genB st.volKey] with
    | (true, d) => (true, { st with active := some newActive, generation := gen }, d)
    | (false, d) => (false, st, d)

/-- The slot an update goes to: the inactive one, or A when none is active. -/
def updateTarget (active : Option SlotId) : SlotId :=
  match active with
  | some slot => slot.other
  | none => .a

def slotPayloadSectors : Nat := payloadCap / sectorSize

/-- Sectors of the agent's write window. -/
def windowLen (slot : SlotId) : Nat := 2 + slotPayloadSectors - (slot.payloadLba - slot.hdrLba)

/-- The agent's run as the service sees it: possibly stopped after some sector writes. -/
def runAgent (w : World) (pubkey : Bytes 32) (target : SlotId) (d : Dev) : UInt64 × Dev :=
  let (code, after) := UpdateAgent.main w pubkey target.hdrLba (windowLen target) d
  match w.agent d.spawns with
  | none => (code, after)
  | some (count, code) =>
      let made := (after.log.drop d.log.length).take count
      (code, { after with disk := applyWrites d.disk made, log := d.log ++ made })

def fmtErr (start : List UInt8) (errno : UInt64) : List UInt8 := start ++ pushNum errno

/-- What follows the agent's exit. -/
def finishUpdate (w : World) (st : State) (target : SlotId) (code : UInt64) (d : Dev) :
    List UInt8 × State × Dev :=
  let note (text reply : List UInt8) (st : State) (d : Dev) : List UInt8 × State × Dev :=
    let (st, d) := auditRaw w st (ascii "update " ++ text) d
    (reply, st, d)
  if code = 0 then
    match validateAndLoad w st.volKey target st.pubkey st.workspace d with
    | (none, out, d) =>
        note (ascii "validate-fail") (ascii "err: applied but validation failed")
          { st with workspace := out } d
    | (some (len, gen), out, d) =>
        match commitSlot w { st with workspace := out } target gen d with
        | (false, st, d) => note (ascii "commit-fail") (ascii "err: commit failed") st d
        | (true, st, d) =>
            note (ascii "applied gen " ++ pushNum gen)
              (ascii "ok applied " ++ pushNum (UInt64.ofNat len) ++ ascii " bytes; reboot") st d
  else if code = 16 then note (ascii "reject bad-signature") (ascii "err: BAD SIGNATURE") st d
  else if code = 17 then note (ascii "reject no-package") (ascii "err: no staged package") st d
  else if code = 18 then note (ascii "io-error") (ascii "err: staging io error") st d
  else if code = 19 then note (ascii "reject stale-generation") (ascii "err: stale generation") st d
  else note (ascii "agent-exit " ++ pushNum code) (ascii "err: agent failed") st d

def runUpdate (w : World) (st : State) (d : Dev) : List UInt8 × State × Dev :=
  let st := { st with cachedApp := none }
  if !st.block then (ascii "err: no volume", st, d)
  else
    let target := updateTarget st.active
    match w.derive d.derives with
    | some errno =>
        (fmtErr (ascii "err: derive stage ") errno, st, { d with derives := d.derives + 1 })
    | none =>
        match w.derive (d.derives + 1) with
        | some errno =>
            (fmtErr (ascii "err: derive slot ") errno, st, { d with derives := d.derives + 2 })
        | none =>
            let d := { d with derives := d.derives + 2, spawns := d.spawns + 1 }
            match w.spawn (d.spawns - 1) with
            | some errno => (fmtErr (ascii "err: spawn updated ") errno, st, d)
            | none =>
                let (code, d) := runAgent w st.pubkey target d
                finishUpdate w st target code d

/-! ### Endpoints -/

/-- Read one audit record by its number. -/
def readAuditRecord (w : World) (st : State) (seq : UInt64) (d : Dev) : List UInt8 × Dev :=
  if !st.block then (ascii "err: novol", d)
  else if st.auditSeq ≤ seq then (ascii "err: range", d)
  else
    match brSector w d (auditStartLba + seq.toNat) with
    | (none, d) => (ascii "err: io", d)
    | (some sec, d) =>
        let dlen := min (sec.slice 22 2 recordLen_inside).toU16.toNat audDataMax
        let data := (sec.val.drop 56).take dlen
        let text := pushNum (sec.slice 4 8 recordNumber_inside).toU64 ++ [32] ++
          pushNum (sec.slice 12 8 recordTick_inside).toU64 ++ [32]
          ++ data
        (text.take 38, d)

/-- The request after one of two spellings of a command. -/
def stripEither (req long short : List UInt8) : Option (List UInt8) :=
  match stripPrefix req long with
  | some rest => some rest
  | none => stripPrefix req short

def errQuery : List UInt8 := ascii "err: query?"

/-- A number argument; what is not a number stands for the largest one. -/
def indexArg (rest : List UInt8) : UInt64 := (parseNum (trim rest)).getD (UInt64.ofNat (2 ^ 64 - 1))

def rosterText (r : RosterEntry) : List UInt8 :=
  r.name ++ (if r.autostart then ascii " autostart" else ascii " manual") ++
    (if r.restart then ascii " restart" else ascii " once")

def handleAppQuery (w : World) (st : State) (req : List UInt8) (d : Dev) :
    List UInt8 × State × Dev :=
  if req = ascii "app-count" then (pushNum (UInt64.ofNat (appUniqueCount st)), st, d)
  else if let some rest := stripPrefix req (ascii "app-list ") then
    match appAtIndex st (indexArg rest).toNat with
    | some app => (app.label ++ [32] ++ pushNum app.version, st, d)
    | none => (ascii "err: range", st, d)
  else if let some name := stripEither req (ascii "app-info ") (ascii "ai ") then
    appInfo w st (trim name) d
  else if let some name := stripEither req (ascii "app-hash ") (ascii "ah ") then
    (appHash st (trim name), st, d)
  else if let some rest := stripEither req (ascii "app-sig ") (ascii "as ") then
    match parseAppChunkReq rest with
    | some (name, off) => (appSig st name off, st, d)
    | none => (errQuery, st, d)
  else if let some rest := stripEither req (ascii "app-chunk ") (ascii "ac ") then
    match parseAppChunkReq rest with
    | some (name, off) => appChunk w st name off d
    | none => (errQuery, st, d)
  else (errQuery, st, d)

def handleQuery (w : World) (st : State) (req : List UInt8) (d : Dev) : List UInt8 × State × Dev :=
  if let some rest := stripPrefix req (ascii "log ") then
    let (st, d) := auditRaw w st (trim rest) d
    (ascii "ok", st, d)
  else if req = ascii "id" then (ascii "id=" ++ st.deviceId, st, d)
  else if req = ascii "slot" then (slotStatusText st, st, d)
  else if let some rest := stripPrefix req (ascii "get ") then
    let key := trim rest
    match lookup st key with
    | some value => (key ++ [61] ++ value, st, d)
    | none => (ascii "err: unset", st, d)
  else if req = ascii "roster-count" then (pushNum (UInt64.ofNat st.roster.length), st, d)
  else if let some rest := stripPrefix req (ascii "roster ") then
    match st.roster[(indexArg rest).toNat]? with
    | some r => (rosterText r, st, d)
    | none => (ascii "err: range", st, d)
  else if req = ascii "auditcount" then (pushNum st.auditSeq, st, d)
  else if let some rest := stripPrefix req (ascii "audit ") then
    let (reply, d) := readAuditRecord w st (indexArg rest) d
    (reply, st, d)
  else handleAppQuery w st req d

def handleConfig (w : World) (st : State) (req : List UInt8) (d : Dev) : List UInt8 × State × Dev :=
  if let some rest := stripPrefix req (ascii "set ") then
    if st.recovery then (ascii "err: recovery mode is read-only", st, d) else setKey w st rest d
  else if req = ascii "begin-update" then runUpdate w st d
  else if req = ascii "install-app" then installApp w st d
  else if let some name := stripPrefix req (ascii "remove-app ") then removeApp w st (trim name) d
  else (ascii "err: config?", st, d)

/-- A message on one of the two endpoints. -/
inductive Request where
  | query (text : List UInt8)
  | config (text : List UInt8)
  deriving DecidableEq

/-- One turn of the service loop. -/
def handle (w : World) (st : State) (req : Request) (d : Dev) : List UInt8 × State × Dev :=
  match req with
  | .query text => handleQuery w st text d
  | .config text => handleConfig w st text d

end Redoubt.Storage
