import ElaraMesh.Lib.F64
import ElaraMesh.Record.Binding
import ElaraMesh.Record.Identity

/-!
# Records as the ledger reads them

Who made a record and when, and the order of a rebuild: at a restart state is derived again
from the stored records, in the order of their timestamps.  Amounts are in base units of the
beat.
-/

namespace ElaraMesh.Ledger

open Record (Str ValidationRecord sha3Hex)
open Smt (Sha3)

def baseUnitsPerBeat : ℕ := 1000000000

def maxSupply : ℕ := 10000000000 * baseUnitsPerBeat

def creatorIdentityHash [Sha3] (record : ValidationRecord) : Str := sha3Hex record.creatorPublicKey

def timestampOf (record : ValidationRecord) : F64 := ⟨record.timestamp⟩

/-- The order of a replay: by timestamp, then by identifier. -/
def Earlier (a b : ValidationRecord) : Prop :=
  (timestampOf a).totalKey < (timestampOf b).totalKey ∨
    (timestampOf a).totalKey = (timestampOf b).totalKey ∧ a.id ≤ b.id

instance : DecidableRel Earlier := fun _ _ => inferInstanceAs (Decidable (_ ∨ _))

/-- A record of the holder of a key of one byte. -/
def plainRecord (id : String) (key : UInt8) (seconds : ℕ) : ValidationRecord :=
  { Record.sampleRecord [] with
    id := .text id
    creatorPublicKey := [key]
    timestamp := (F64.ofNat seconds).bits }

end ElaraMesh.Ledger
