import Devicetree.Error

/-!
# Property values

A value is a byte string whose type only its reader knows: cells are big-endian words, texts end
at a NUL or at the end of the value, and a list of texts is read entry by entry. The entries of a
value are its bytes between NULs; a NUL at the very end closes the last entry.
-/

namespace Devicetree
namespace Value

def cellAt (v : Bytes) (off : UInt64) : Except Error UInt32 :=
  match v.word32? off with
  | some w => .ok w
  | none => .error .badOffset

def doubleCellAt (v : Bytes) (off : UInt64) : Except Error UInt64 :=
  match v.word64? off with
  | some w => .ok w
  | none => .error .badOffset

/-- The bytes before the first NUL, or all of them. -/
def firstEntry (v : Bytes) : Bytes := v.takeWhile (· ≠ 0)

/-- The text at a byte offset, up to the next NUL or the end of the value. -/
def textAt (v : Bytes) (off : UInt64) : Except Error String :=
  if off.toNat ≤ v.length then (firstEntry (v.drop off.toNat)).text else .error .badOffset

/-- What reading a list of texts leaves: the number of texts, or why one is none, and the slots
that were given for them. -/
structure Listing where
  count : Except Error Nat
  slots : List (Option String)

/-- Reads the texts from a byte offset on, of which `count` have been read, each into the slot of
its number. A text without a slot is counted all the same. -/
def fillFrom (v : Bytes) (off count : Nat) (slots : List (Option String)) : Listing :=
  if off < v.length then
    let entry := firstEntry (v.drop off)
    match entry.text with
    | .error e => ⟨.error e, slots⟩
    | .ok s => fillFrom v (off + min (entry.length + 1) (v.length - off)) (count + 1)
        (slots.set count (some s))
  else ⟨.ok count, slots⟩
termination_by v.length - off

def fill (v : Bytes) (slots : List (Option String)) : Listing := fillFrom v 0 0 slots

def countTexts (v : Bytes) : Except Error Nat := (fill v []).count

/-- The byte strings between the NULs of a value. -/
def entries : Bytes → List Bytes
  | [] => []
  | b :: rest =>
    if b = 0 then [] :: entries rest
    else
      match entries rest with
      | [] => [[b]]
      | entry :: more => (b :: entry) :: more

end Value
end Devicetree
