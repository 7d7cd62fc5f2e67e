import ElaraMesh.Lib.F64
import ElaraMesh.Lib.Runs
import ElaraMesh.Lib.U64
import ElaraMesh.Record.Text

/-!
# How a ledger operation stops

An operation is refused with an error, or panics: the build checks every integer
operation for overflow, and cuts a string only between characters.  The text of an error
is kept as the pieces it is formatted from.

## Main definitions

* `Piece`, `Message`, `ElaraError` — errors and their texts.
* `Stop` — an error or a panic.
-/

namespace ElaraMesh.Ledger

open Record (Str)

/-- A piece of the text of an error: written out, or a value to be formatted. -/
inductive Piece where
  | text (s : String) : Piece
  | str (s : Str) : Piece
  /-- The first 16 bytes of a string. -/
  | clip (s : Str) : Piece
  | path (bytes : List UInt8) : Piece
  | num (n : ℕ) : Piece
  | float (x : F64) : Piece
  /-- A float without its fraction. -/
  | whole (x : F64) : Piece
  deriving DecidableEq

abbrev Message : Type := List Piece

/-- Can the piece be formatted?  A string is cut between characters only. -/
def Piece.prints : Piece → Bool
  | .clip s => (Str.fromUtf8 (s.bytes.take 16)).isOk
  | _ => true

inductive ElaraError where
  | ledger (m : Message) : ElaraError
  | governance (m : Message) : ElaraError
  | wire (m : Message) : ElaraError
  deriving DecidableEq

namespace ElaraError

def message : ElaraError → Message
  | ledger m => m
  | governance m => m
  | wire m => m

/-- The text with the kind of the error in front. -/
def display : ElaraError → Message
  | ledger m => .text "Ledger error: " :: m
  | governance m => .text "Governance error: " :: m
  | wire m => .text "Wire format error: " :: m

end ElaraError

/-- Why an operation does not return. -/
inductive Stop where
  | err (e : ElaraError) : Stop
  | overflow : Stop
  /-- A string is cut inside of a character. -/
  | slice : Stop
  deriving DecidableEq

/-- Is the operation refused by an error, rather than by a panic? -/
def Stop.isErr : Stop → Bool
  | .err _ => true
  | _ => false

/-- Fail with an error, if its text can be formatted. -/
def fail (e : ElaraError) : Stop := if e.message.all Piece.prints then .err e else .slice

def ledgerError (m : Message) : Stop := fail (.ledger m)

def governanceError (m : Message) : Stop := fail (.governance m)

end ElaraMesh.Ledger
