import Devicetree.Text.Quoted
import Devicetree.Text.Utf8

/-!
# Errors

What can go wrong between a blob in memory and an answer from its tree. Each error is a cause;
its wordings are functions of it.
-/

namespace Devicetree

inductive AddressFault
  | null
  /-- A blob starts at a multiple of four. -/
  | unaligned
  deriving DecidableEq

inductive Error
  | badAddress (fault : AddressFault)
  | badMagic
  /-- A read reaches outside the value it reads from. -/
  | badOffset
  | malformed
  | badText (fault : Utf8.Fault)
  /-- The structure block does not start with a node. -/
  | noNodes
  | outOfMemory
  /-- Populating the block took other bytes than were measured. -/
  | sizeMismatch (expected used : Nat)
  deriving DecidableEq

def AddressFault.message : AddressFault → String
  | .null => "Null device tree pointer"
  | .unaligned => "Unaligned buffer provided"

/-- Whether the bytes were not recognised as a blob at all. -/
def Error.isInvalidBlob : Error → Bool
  | .badAddress _ | .badMagic => true
  | _ => false

def Error.message : Error → String
  | .badAddress fault => "Invalid parameter supplied: " ++ fault.message
  | .badMagic => "Device tree contains invalid magic number."
  | .badOffset => "Invalid offset provided."
  | .malformed => "Failed to parse device tree. It is invalid."
  | .badText fault => "Failed to parse device tree string: " ++ fault.message
  | .noNodes => "Device tree contains no nodes."
  | .outOfMemory => "Unable to allocate memory for the device tree."
  | .sizeMismatch expected used =>
    s!"Device tree construction used {used} bytes but {expected} were measured."

open Quoted in
/-- The error as diagnostics show it inside other values. -/
def Error.debugText : Error → String
  | .badAddress fault => "InvalidParameter(" ++ quote fault.message ++ ")"
  | .badMagic => "InvalidMagicNumber"
  | .badOffset => "InvalidOffset"
  | .malformed => "ParseError"
  | .badText fault =>
    "StrError(" ++ fields "Utf8Error"
      [("valid_up_to", toString fault.validUpTo),
        ("error_len", optional (fault.length.map toString))] ++ ")"
  | .noNodes => "EmptyTree"
  | .outOfMemory => "AllocationFailure"
  | .sizeMismatch expected used =>
    fields "SizeMismatch" [("expected", toString expected), ("used", toString used)]

/-- A text or why it is none, as diagnostics show it. -/
def debugOutcome (r : Except Error String) : String :=
  Quoted.outcome (match r with
    | .ok s => .ok (Quoted.quote s)
    | .error e => .error e.debugText)

/-- The text that the bytes encode. -/
def Bytes.text (b : Bytes) : Except Error String :=
  match Utf8.decode b with
  | .ok s => .ok s
  | .error fault => .error (.badText fault)

end Devicetree
