import Redoubt.Foundation.Bytes

/-!
# Text handling of the storage service

Lines, key-value pairs, numbers and the service roster, over raw bytes.
-/

namespace Redoubt.Storage

open Redoubt.Foundation

def isBlank (byte : UInt8) : Bool := byte == 32 || byte == 9 || byte == 13

/-- Blanks removed at both ends. -/
def trim (s : List UInt8) : List UInt8 :=
  ((s.dropWhile isBlank).reverse.dropWhile isBlank).reverse

/-- The rest of a byte string that starts with these bytes. -/
def stripPrefix (s start : List UInt8) : Option (List UInt8) :=
  if s.take start.length = start then some (s.drop start.length) else none

def lines (text : List UInt8) : List (List UInt8) := text.splitOn 10

/-- The line up to its first equals sign, and what follows. -/
def splitKv (line : List UInt8) : Option (List UInt8 × List UInt8) :=
  (line.findIdx? (· == 61)).map fun eq => (line.take eq, line.drop (eq + 1))

/-- The trimmed value on this line, if it assigns this key. -/
def lineValue (key line : List UInt8) : Option (List UInt8) :=
  match splitKv line with
  | some (name, value) => if name = key then some (trim value) else none
  | none => none

/-- Lines that are empty or start with a hash sign say nothing. -/
def isComment (line : List UInt8) : Bool := line.isEmpty || line.head? == some 35

def findKv (payload key : List UInt8) : Option (List UInt8) :=
  (lines payload).findSome? fun line =>
    let line := trim line
    if isComment line then none else lineValue key line

structure RosterEntry where
  name : List UInt8
  autostart : Bool
  restart : Bool
  deriving DecidableEq

/-- Text that is not valid UTF-8 is replaced. -/
def utf8Or (bytes default : List UInt8) : List UInt8 :=
  if (String.fromUTF8? ⟨bytes.toArray⟩).isSome then bytes else default

def parseRoster (payload : List UInt8) : List RosterEntry :=
  (lines payload).filterMap fun line =>
    let line := trim line
    if isComment line then none
    else
      match stripPrefix line (ascii "service ") with
      | none => none
      | some rest =>
          match (rest.splitOn 32).filter (!·.isEmpty) with
          | name :: autostart :: restart :: _ =>
              some
                { name := utf8Or name (ascii "?")
                  autostart := autostart == ascii "autostart"
                  restart := restart == ascii "restart" }
          | _ => none

/-- Decimal digits, least significant first. -/
def digitsLe : Nat → Nat → List UInt8
  | 0, _ => []
  | fuel + 1, value =>
      if value = 0 then [] else UInt8.ofNat (48 + value % 10) :: digitsLe fuel (value / 10)

def pushNum (value : UInt64) : List UInt8 :=
  if value = 0 then [48] else (digitsLe 20 value.toNat).reverse

def digitValue (byte : UInt8) : Option Nat :=
  if 48 ≤ byte ∧ byte ≤ 57 then some (byte.toNat - 48) else none

/-- An unsigned 64-bit number with an optional plus sign. -/
def parseNum (bytes : List UInt8) : Option UInt64 :=
  let digits := if bytes.head? = some 43 then bytes.drop 1 else bytes
  if digits.isEmpty then none
  else
    match digits.mapM digitValue with
    | none => none
    | some values =>
        let value := values.foldl (fun acc digit => 10 * acc + digit) 0
        if value < wordLimit then some (UInt64.ofNat value) else none

end Redoubt.Storage
