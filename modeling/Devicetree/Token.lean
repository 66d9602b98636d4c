import Devicetree.Error

/-!
# Tokens

The structure block is a sequence of tokens, each a tag word followed by what the tag calls for,
padded to words. One read decodes the token at an offset and moves the offset past it. A read
that fails leaves the offset behind the last part it understood, so a caller can go on from
there.
-/

namespace Devicetree

inductive Token
  /-- Starts a node. -/
  | beginNode (name : Bytes)
  | endNode
  /-- A property, named by an offset into the block of names. -/
  | property (nameOffset : UInt32) (value : Bytes)
  | nop
  deriving DecidableEq

namespace Token

def beginNodeTag : UInt32 := 1
def endNodeTag : UInt32 := 2
def propertyTag : UInt32 := 3
def nopTag : UInt32 := 4
def endTag : UInt32 := 9

/-- How many bytes are searched for the NUL of a modern node name. -/
def maxNameLength : Nat := 256

/-- The name of a node and the offset past its padding. Legacy names are whole paths and have no
limit. -/
def readName (bytes : Bytes) (legacy : Bool) (off : UInt64) : Option (Bytes × UInt64) :=
  (if legacy then bytes.string? off else bytes.stringWithin? off maxNameLength).map fun name =>
    (name, Word.alignUp (off + (UInt64.ofNat name.length + 1)) 4)

/-- Where a value of the given length starts, if its header ends at `off`: legacy values of eight
bytes or more start at a multiple of eight. -/
def valueStart (legacy : Bool) (length : UInt32) (off : UInt64) : UInt64 :=
  if legacy then Word.alignUp off (if 8 ≤ length then 8 else 4) else off

/-- The name offset and value of a property and the offset past its padding, or the offset at
which reading failed. -/
def readProperty (bytes : Bytes) (legacy : Bool) (off : UInt64) :
    Option (UInt32 × Bytes) × UInt64 :=
  match bytes.word32? off, bytes.word32? (off + 4) with
  | some length, some nameOffset =>
    let start := valueStart legacy length (off + 8)
    match bytes.slice? start length.toUInt64 with
    | some value =>
      (some (nameOffset, value), Word.alignUp (start + UInt64.ofNat value.length) 4)
    | none => (none, start)
  | _, _ => (none, off)

/-- The token at a word-aligned offset, or `none` for the end of the structure block, and the
offset after the read. -/
def read (bytes : Bytes) (legacy : Bool) (off : UInt64) :
    Except Error (Option Token) × UInt64 :=
  match bytes.word32? off with
  | none => (.error .malformed, off)
  | some tag =>
    let off := off + 4
    if tag = beginNodeTag then
      match readName bytes legacy off with
      | some (name, off) => (.ok (some (.beginNode name)), off)
      | none => (.error .malformed, off)
    else if tag = endNodeTag then (.ok (some .endNode), off)
    else if tag = propertyTag then
      match readProperty bytes legacy off with
      | (some (nameOffset, value), off) => (.ok (some (.property nameOffset value)), off)
      | (none, off) => (.error .malformed, off)
    else if tag = nopTag then (.ok (some .nop), off)
    else if tag = endTag then (.ok none, off)
    else (.error .malformed, off)

end Token
end Devicetree
