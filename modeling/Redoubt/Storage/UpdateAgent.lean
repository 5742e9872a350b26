import Redoubt.Crypto.Ed25519
import Redoubt.Storage.Device

/-!
# The update agent

The agent reads the staged package, verifies the signature over the sealed image and
copies the image sector by sector into its write window.  It holds no volume key.
-/

namespace Redoubt.Storage

open Redoubt.Foundation Redoubt.Crypto

/-- Sectors moved by one block transfer at most. -/
def chunkSectors : Nat := 8

namespace UpdateAgent

def exitApplied : UInt64 := 0
def exitBadSignature : UInt64 := 16
def exitNoPackage : UInt64 := 17
def exitStagingIo : UInt64 := 18
def exitWriteFailed : UInt64 := 19

/-- The staging window, read in chunks. -/
def readStaging (w : World) : Nat → Nat → Dev → Option (List UInt8) × Dev
  | 0, _, d => (some [], d)
  | fuel + 1, done, d =>
      match br w d (stagingLba + done / sectorSize) chunkSectors with
      | (none, d) => (none, d)
      | (some data, d) =>
          match readStaging w fuel (done + chunkSectors * sectorSize) d with
          | (none, d) => (none, d)
          | (some rest, d) => (some (data ++ rest), d)

/-- A write through the window capability. -/
def windowWrite (w : World) (d : Dev) (windowLba windowLen off : Nat) (sectors : List Sector) :
    Bool × Dev :=
  if off + sectors.length ≤ windowLen then bw w d (windowLba + off) sectors else (false, d)

/-- Copy the image in chunks; the last one is padded with zeros. -/
def copyImage (w : World) (windowLba windowLen : Nat) (image : List UInt8) :
    Nat → Nat → Nat → Dev → Bool × Dev
  | 0, _, _, d => (true, d)
  | fuel + 1, lbaOff, done, d =>
      if done < image.length then
        let take := min (image.length - done) (chunkSectors * sectorSize)
        let sectors := (take + sectorSize - 1) / sectorSize
        let padded := (image.drop done).take take
        match windowWrite w d windowLba windowLen lbaOff (toSectors sectors padded) with
        | (false, d) => (false, d)
        | (true, d) =>
            copyImage w windowLba windowLen image fuel (lbaOff + sectors) (done + take) d
      else (true, d)

/-- The whole agent: its exit code and what it leaves on the device. -/
def main (w : World) (pubkey : Bytes 32) (windowLba windowLen : Nat) (d : Dev) : UInt64 × Dev :=
  match readStaging w (stagingSectors / chunkSectors) 0 d with
  | (none, d) => (exitStagingIo, d)
  | (some pkg, d) =>
      match parseStagePackage pkg with
      | none => (exitNoPackage, d)
      | some (image, sig) =>
          if !Ed25519.accepts pubkey image sig then (exitBadSignature, d)
          else
            match copyImage w windowLba windowLen image image.length 0 0 d with
            | (false, d) => (exitWriteFailed, d)
            | (true, d) => (exitApplied, d)

end UpdateAgent

end Redoubt.Storage
