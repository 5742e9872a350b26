import Redoubt.Crypto.Sha2
import Redoubt.Services.Message
import Redoubt.Storage.TextLaws

/-!
# The manifest of the program store

The build script of the init program writes one line for every program of the store: its
name, its length in decimal and its digest in hexadecimal.  At boot the init program reads
the lines back, leaving out those it cannot read, and refuses a store with a program that
no line covers.
-/

namespace Redoubt.Services

open Redoubt.Foundation Redoubt.Crypto Redoubt.Storage

/-! ### The writer -/

/-- A program file that the build script has read; its length is a machine word. -/
structure Program where
  name : List UInt8
  bytes : List UInt8
  fits : bytes.length < wordLimit

def hexDigit (value : Nat) : UInt8 := UInt8.ofNat (if value < 10 then 48 + value else 87 + value)

/-- Two lower-case digits for every byte. -/
def hexText (bytes : List UInt8) : List UInt8 :=
  bytes.flatMap fun byte => [hexDigit (byte.toNat / 16), hexDigit (byte.toNat % 16)]

def Program.line (p : Program) : List UInt8 :=
  p.name ++ 32 :: ((decimal p.bytes.length).map digitByte ++ 32 :: hexText (sha256 p.bytes).val)

def manifestText (programs : List Program) : List UInt8 :=
  ascii "redoubt-manifest v1" ++ 10 :: programs.flatMap fun p => p.line ++ [10]

/-! ### The reader -/

structure ManifestEntry where
  name : Bytes 16
  nameLen : Nat
  len : UInt64
  sha : Bytes 32
  deriving DecidableEq

def hexValue (byte : UInt8) : Option Nat :=
  if 48 ≤ byte ∧ byte ≤ 57 then some (byte.toNat - 48)
  else if 97 ≤ byte ∧ byte ≤ 102 then some (byte.toNat - 87)
  else if 65 ≤ byte ∧ byte ≤ 70 then some (byte.toNat - 55)
  else none

/-- Two characters as a byte.  Like any number it may start with a plus sign. -/
def hexByte (high low : UInt8) : Option UInt8 :=
  if high = 43 then (hexValue low).map UInt8.ofNat
  else do
    let h ← hexValue high
    let l ← hexValue low
    some (UInt8.ofNat (16 * h + l))

/-- So many bytes, two characters each. -/
def hexBytes : (count : Nat) → List UInt8 → Option (Bytes count)
  | 0, _ => some ⟨[], rfl⟩
  | count + 1, high :: low :: rest => do
      -- A cut inside a character fails as well; none of its bytes is a digit.
      let byte ← hexByte high low
      let bytes ← hexBytes count rest
      some ⟨byte :: bytes.val, congrArg Nat.succ bytes.property⟩
  | _ + 1, _ => none

/-- The first bytes of a name, and zeros behind them. -/
def nameField (name : List UInt8) : Bytes 16 :=
  ⟨name.take 16 ++ List.replicate (16 - name.length) 0, by
    rw [List.length_append, List.length_take, List.length_replicate]
    omega⟩

def parseEntry (line : List UInt8) : Option ManifestEntry :=
  match (line.splitOn 32).filter (!·.isEmpty) with
  | [name, len, sha] =>
      if (utf8Or sha []).length ≠ 64 then none
      else do
        let digest ← hexBytes 32 (utf8Or sha [])
        let length ← parseNum (utf8Or len [])
        if min name.length 16 = 0 then none
        else
          some { name := nameField name, nameLen := min name.length 16, len := length, sha := digest }
  | _ => none

def parseManifest (text : List UInt8) : List ManifestEntry := ((lines text).drop 1).filterMap parseEntry

/-- The programs by name. -/
abbrev Initfs.Store := List (List UInt8 × List UInt8)

/-- One line agrees with a program of the store in everything. -/
def covered (manifest : List ManifestEntry) (name elf : List UInt8) : Bool :=
  manifest.any fun e =>
    e.nameLen = name.length ∧ e.name.val.take e.nameLen = name ∧ e.len.toNat = elf.length ∧
      e.sha = sha256 elf

/-- The program at which the boot stops. -/
def mismatch (manifest : List ManifestEntry) (store : Initfs.Store) : Option (List UInt8) :=
  (store.find? fun entry => !covered manifest entry.1 entry.2).map Prod.fst

/-! ### Printable text -/

/-- Neither blanks nor control characters, and 7-bit characters only. -/
def Printable (text : List UInt8) : Prop := ∀ byte ∈ text, 33 ≤ byte.toNat ∧ byte.toNat < 127

theorem Printable.not_mem {text : List UInt8} (h : Printable text) {byte : UInt8}
    (low : byte.toNat < 33) :
    byte ∉ text := by
  intro hmem
  have hbyte := (h byte hmem).1
  omega

theorem Printable.utf8Or_eq {text : List UInt8} (h : Printable text) (default : List UInt8) :
    utf8Or text default = text := by
  have hascii : ∀ byte ∈ text, byte.toNat < 128 := fun byte hbyte => Nat.lt_succ_of_lt (h byte hbyte).2
  rw [utf8Or, fromUTF8_ascii hascii]
  rfl

theorem printable_decimal (value : Nat) : Printable ((decimal value).map digitByte) := by
  intro byte hbyte
  obtain ⟨digit, hdigit, rfl⟩ := List.mem_map.mp hbyte
  have hlt := decimal_lt hdigit
  rw [digitByte_toNat hlt]
  omega

/-! ### Hexadecimal digits -/

theorem hexDigit_toNat {value : Nat} (h : value < 16) :
    (hexDigit value).toNat = if value < 10 then 48 + value else 87 + value := by
  rw [hexDigit, UInt8.toNat_ofNat', Nat.mod_eq_of_lt (by split_ifs <;> omega)]

theorem hexValue_hexDigit {value : Nat} (h : value < 16) : hexValue (hexDigit value) = some value := by
  have hbyte := hexDigit_toNat h
  unfold hexValue
  simp only [UInt8.le_iff_toNat_le, hbyte]
  split_ifs at hbyte ⊢ with hsmall
  all_goals simp at *
  all_goals omega

theorem hexByte_hexDigit (byte : UInt8) :
    hexByte (hexDigit (byte.toNat / 16)) (hexDigit (byte.toNat % 16)) = some byte := by
  have hlt := byte.toNat_lt
  have hhigh : byte.toNat / 16 < 16 := by omega
  have hplus : hexDigit (byte.toNat / 16) ≠ 43 := by
    intro heq
    have hvalue := hexDigit_toNat hhigh
    rw [heq] at hvalue
    change 43 = _ at hvalue
    split_ifs at hvalue <;> omega
  rw [hexByte, if_neg hplus, hexValue_hexDigit hhigh, hexValue_hexDigit (Nat.mod_lt _ (by decide))]
  simp only [Option.bind_eq_bind, Option.bind_some, Nat.div_add_mod, UInt8.ofNat_toNat]

theorem printable_hexText (bytes : List UInt8) : Printable (hexText bytes) := by
  intro char hchar
  obtain ⟨byte, _, hdigit⟩ := List.mem_flatMap.mp hchar
  obtain ⟨value, hvalue, rfl⟩ : ∃ value < 16, char = hexDigit value := by
    have hlt := byte.toNat_lt
    rcases List.mem_pair.mp hdigit with rfl | rfl
    · exact ⟨_, by omega, rfl⟩
    · exact ⟨_, by omega, rfl⟩
  rw [hexDigit_toNat hvalue]
  split_ifs <;> omega

theorem length_hexText (bytes : List UInt8) : (hexText bytes).length = 2 * bytes.length := by
  rw [hexText, List.length_flatMap]
  simp [Nat.mul_comm]

theorem hexBytes_hexText {count : Nat} (bytes : Bytes count) :
    hexBytes count (hexText bytes.val) = some bytes := by
  induction count with
  | zero => exact congrArg some (Subtype.ext (List.length_eq_zero_iff.mp bytes.property).symm)
  | succ _ ih =>
      obtain ⟨_ | ⟨byte, rest⟩, hlen⟩ := bytes
      · cases hlen
      · have hrest := ih ⟨rest, Nat.succ.inj hlen⟩
        unfold hexText at hrest ⊢
        rw [List.flatMap_cons, List.cons_append, List.cons_append, List.nil_append, hexBytes,
          hexByte_hexDigit, hrest]
        rfl

/-! ### One line -/

/-- A name that the manifest can hold. -/
structure Program.Storable (p : Program) : Prop where
  named : p.name ≠ []
  short : p.name.length ≤ 16
  oneWord : 32 ∉ p.name
  oneLine : 10 ∉ p.name

/-- Name, length and digest of a program. -/
def record (name bytes : List UInt8) : List UInt8 × Nat × Bytes 32 := (name, bytes.length, sha256 bytes)

def ManifestEntry.record (e : ManifestEntry) : List UInt8 × Nat × Bytes 32 :=
  (e.name.val.take e.nameLen, e.len.toNat, e.sha)

/-- The entry that a program's line stands for. -/
def Program.entry (p : Program) : ManifestEntry where
  name := nameField p.name
  nameLen := p.name.length
  len := UInt64.ofNat p.bytes.length
  sha := sha256 p.bytes

theorem Program.Storable.record_entry {p : Program} (h : p.Storable) :
    p.entry.record = record p.name p.bytes := by
  have hname : (nameField p.name).val.take p.name.length = p.name := by
    rw [nameField, List.take_append_of_le_length (by rw [List.length_take]; have := h.short; omega),
      List.take_take, Nat.min_eq_left h.short, List.take_length]
  have hlen : (UInt64.ofNat p.bytes.length).toNat = p.bytes.length := UInt64.toNat_ofNat_of_lt' p.fits
  rw [ManifestEntry.record, Program.entry, Services.record, hname, hlen]

theorem Program.Storable.line_single {p : Program} (h : p.Storable) : 10 ∉ p.line := by
  have hdigits := (printable_decimal p.bytes.length).not_mem (show (10 : UInt8).toNat < 33 by decide)
  have hhex := (printable_hexText (sha256 p.bytes).val).not_mem (show (10 : UInt8).toNat < 33 by decide)
  have hspace : (10 : UInt8) ≠ 32 := by decide
  simp only [Program.line, List.mem_append, List.mem_cons, not_or]
  exact ⟨h.oneLine, hspace, hdigits, hspace, hhex⟩

/-- The three parts of a line, none of them empty. -/
theorem Program.Storable.line_parts {p : Program} (h : p.Storable) :
    (p.line.splitOn 32).filter (!·.isEmpty) =
      [p.name, (decimal p.bytes.length).map digitByte, hexText (sha256 p.bytes).val] := by
  have hdigits := (printable_decimal p.bytes.length).not_mem (show (32 : UInt8).toNat < 33 by decide)
  have hhex := (printable_hexText (sha256 p.bytes).val).not_mem (show (32 : UInt8).toNat < 33 by decide)
  have hlen := length_hexText (sha256 p.bytes).val
  rw [Bytes.length_val] at hlen
  have hlast : hexText (sha256 p.bytes).val ≠ [] := fun heq => by
    rw [heq] at hlen
    cases hlen
  rw [Program.line, List.splitOn_append_cons_self_of_not_mem h.oneWord,
    List.splitOn_append_cons_self_of_not_mem hdigits, List.splitOn_eq_singleton hhex]
  simp [h.named, decimal_ne_nil, hlast]

/-- The boot reads a line as the build script meant it. -/
theorem Program.Storable.parseEntry_line {p : Program} (h : p.Storable) :
    parseEntry p.line = some p.entry := by
  have hdigest := (printable_hexText (sha256 p.bytes).val).utf8Or_eq []
  have hdigits := (printable_decimal p.bytes.length).utf8Or_eq []
  have hlen : (hexText (sha256 p.bytes).val).length = 64 := by rw [length_hexText, Bytes.length_val]
  have hnumber : parseNum ((decimal p.bytes.length).map digitByte) =
      some (UInt64.ofNat p.bytes.length) := by
    have hvalue : (UInt64.ofNat p.bytes.length).toNat = p.bytes.length := UInt64.toNat_ofNat_of_lt' p.fits
    have hpush := pushNum_eq (UInt64.ofNat p.bytes.length)
    rw [hvalue] at hpush
    rw [← hpush, parseNum_pushNum]
  have hname : min p.name.length 16 = p.name.length := Nat.min_eq_left h.short
  have hpos : p.name.length ≠ 0 := fun hzero => h.named (List.length_eq_zero_iff.mp hzero)
  unfold parseEntry
  rw [h.line_parts]
  dsimp only
  rw [hdigest, hdigits, hlen, hexBytes_hexText, hnumber, hname, if_neg (not_not.mpr rfl)]
  simp only [Option.bind_eq_bind, Option.bind_some, if_neg hpos]
  rfl

/-! ### The whole text -/

theorem parseManifest_manifestText {programs : List Program} (h : ∀ p ∈ programs, p.Storable) :
    parseManifest (manifestText programs) = programs.map Program.entry := by
  have hheader : (10 : UInt8) ∉ ascii "redoubt-manifest v1" := by decide
  have hlines : (lines (programs.flatMap fun p => p.line ++ [10])).filterMap parseEntry =
      programs.map Program.entry := by
    induction programs with
    | nil => rfl
    | cons p _ ih =>
        rw [List.forall_mem_cons] at h
        rw [List.flatMap_cons, List.append_assoc, List.singleton_append, lines_cons h.1.line_single,
          List.filterMap_cons_some h.1.parseEntry_line, ih h.2, List.map_cons]
  rw [parseManifest, manifestText, lines_cons hheader, List.drop_one, List.tail_cons, hlines]

/-- An entry covers a program iff it stands for the same record. -/
theorem ManifestEntry.covers_iff {e : ManifestEntry} (name elf : List UInt8)
    (inside : e.nameLen = (e.name.val.take e.nameLen).length) :
    (e.nameLen = name.length ∧ e.name.val.take e.nameLen = name ∧ e.len.toNat = elf.length ∧
      e.sha = sha256 elf) ↔
      e.record = Services.record name elf := by
  rw [ManifestEntry.record, Services.record, Prod.mk.injEq, Prod.mk.injEq]
  constructor
  · exact fun hsame => hsame.2
  · exact fun hsame => ⟨inside.trans (congrArg List.length hsame.1), hsame⟩

theorem mismatch_eq_none_iff {manifest : List ManifestEntry} {store : Initfs.Store}
    (inside : ∀ e ∈ manifest, e.nameLen = (e.name.val.take e.nameLen).length) :
    mismatch manifest store = none ↔
      ∀ entry ∈ store, record entry.1 entry.2 ∈ manifest.map ManifestEntry.record := by
  have hcovered : ∀ entry : List UInt8 × List UInt8, covered manifest entry.1 entry.2 = true ↔
      record entry.1 entry.2 ∈ manifest.map ManifestEntry.record := by
    intro entry
    rw [covered, List.any_eq_true, List.mem_map]
    refine exists_congr fun e => and_congr_right fun he => ?_
    rw [decide_eq_true_iff, ManifestEntry.covers_iff _ _ (inside e he)]
  rw [mismatch, Option.map_eq_none_iff, List.find?_eq_none]
  refine forall₂_congr fun entry _ => ?_
  rw [← hcovered entry, Bool.not_eq_true, Bool.not_eq_false']

/-- The boot reads back the names, lengths and digests that the build script wrote, and
starts iff every program of the store is among them. -/
theorem manifest_round_trip (programs : List Program) (h : ∀ p ∈ programs, p.Storable) :
    (parseManifest (manifestText programs)).map ManifestEntry.record =
        programs.map (fun p => record p.name p.bytes) ∧
      ∀ store : Initfs.Store, mismatch (parseManifest (manifestText programs)) store = none ↔
        ∀ entry ∈ store, record entry.1 entry.2 ∈ programs.map fun p => record p.name p.bytes := by
  have hrecords : (programs.map Program.entry).map ManifestEntry.record =
      programs.map fun p => record p.name p.bytes := by
    rw [List.map_map]
    exact List.map_congr_left fun p hp => (h p hp).record_entry
  have hinside : ∀ e ∈ programs.map Program.entry, e.nameLen = (e.name.val.take e.nameLen).length := by
    intro e he
    obtain ⟨p, hp, rfl⟩ := List.mem_map.mp he
    have hname : (p.entry.name.val.take p.entry.nameLen) = p.name :=
      congrArg Prod.fst (h p hp).record_entry
    rw [hname]
    rfl
  rw [parseManifest_manifestText h, ← hrecords]
  exact ⟨rfl, fun _ => mismatch_eq_none_iff hinside⟩

theorem manifest_round_trip_supervisor :
    mismatch (parseManifest
      (manifestText [⟨ascii "shell", [127, 69], by decide⟩, ⟨ascii "supd", [127], by decide⟩]))
      [(ascii "supd", [127])] = none := by
  have hstorable :
      ∀ p ∈ [Program.mk (ascii "shell") [127, 69] (by decide), ⟨ascii "supd", [127], by decide⟩],
      p.Storable := by
    intro p hp
    rcases List.mem_pair.mp hp with rfl | rfl
    · exact ⟨by decide, by decide, by decide, by decide⟩
    · exact ⟨by decide, by decide, by decide, by decide⟩
  refine ((manifest_round_trip _ hstorable).2 _).mpr ?_
  intro entry hentry
  rw [List.mem_singleton.mp hentry]
  exact List.mem_cons_of_mem _ List.mem_cons_self

end Redoubt.Services
