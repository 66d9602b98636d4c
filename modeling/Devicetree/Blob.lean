import Devicetree.Error

/-!
# Blobs

A blob is a flattened tree in memory: a header of ten words, a structure block and a block of
property names. The header tells the blob's size, and nothing after that many bytes belongs to
it. Offsets inside a blob count from its first byte; only the blob itself has to be aligned.
-/

namespace Devicetree

structure Buffer where
  address : Nat
  bytes : Bytes

/-- The first word of every blob. -/
def magic : UInt32 := 0xd00dfeed

def headerSize : Nat := 40

namespace Buffer

/-- A buffer too short for the magic number has none. -/
def verifyMagic (b : Buffer) : Except Error Unit :=
  if b.bytes.word32? 0 = some magic then .ok () else .error .badMagic

def totalSize (b : Buffer) : Except Error UInt32 :=
  match b.verifyMagic with
  | .error e => .error e
  | .ok () =>
    if b.address % 4 = 0 then
      match b.bytes.word32? 4 with
      | some size => if headerSize ≤ size.toNat then .ok size else .error .malformed
      | none => .error .malformed
    else .error (.badAddress .unaligned)

theorem headerSize_le_of_totalSize {b : Buffer} {size : UInt32} (h : b.totalSize = .ok size) :
    headerSize ≤ size.toNat := by
  unfold totalSize at h
  repeat' split at h
  all_goals first | contradiction | (cases h; assumption)

end Buffer

/-- The bytes of one blob, from its header to its declared end. -/
structure Blob where
  address : Nat
  bytes : Bytes
  headerSize_le : headerSize ≤ bytes.length
  length_lt : bytes.length < UInt32.size

namespace Blob

def headerWord (b : Blob) (off : UInt64) : UInt32 := (b.bytes.word32? off).getD 0

def magicNumber (b : Blob) : UInt32 := b.headerWord 0

def totalSize (b : Blob) : UInt32 := b.headerWord 4

def structOffset (b : Blob) : UInt32 := b.headerWord 8

/-- Where the names of properties start. -/
def stringsOffset (b : Blob) : UInt32 := b.headerWord 12

def version (b : Blob) : UInt32 := b.headerWord 20

def lastCompatibleVersion (b : Blob) : UInt32 := b.headerWord 24

def bootProcessor (b : Blob) : UInt32 := b.headerWord 28

/-- The first version whose nodes are named by the last part of their path and whose values are
aligned to words only. -/
def firstModernVersion : UInt32 := 16

def isLegacy (b : Blob) : Bool := b.version < firstModernVersion

/-- Whether two blobs are the same bytes of memory. -/
def isSame (a b : Blob) : Bool := a.address = b.address && a.bytes.length = b.bytes.length

/-- The blob of a known size at the start of the given bytes. -/
def cut (b : Buffer) (size : UInt32) (h : headerSize ≤ size.toNat) : Except Error Blob :=
  if hsize : size.toNat ≤ b.bytes.length then
    have hlength : (b.bytes.take size.toNat).length = size.toNat := by
      rw [List.length_take]
      omega
    let blob : Blob :=
      ⟨b.address, b.bytes.take size.toNat, by omega, by rw [hlength]; exact size.toNat_lt⟩
    if blob.structOffset.toNat % 4 = 0 ∧ blob.structOffset.toNat < blob.bytes.length ∧
        blob.stringsOffset.toNat ≤ blob.bytes.length then .ok blob
    else .error .malformed
  else .error .malformed

/-- The blob at the start of a buffer, which may be longer. -/
def ofBuffer (b : Buffer) : Except Error Blob :=
  match h : b.totalSize with
  | .ok size => cut b size (Buffer.headerSize_le_of_totalSize h)
  | .error e => .error e

/-- The blob at an address, `none` for null. The memory there holds a header at least, and all
that the header declares. No memory is at the address zero, which is null too. -/
def ofMemory : Option Buffer → Except Error Blob
  | none => .error (.badAddress .null)
  | some b =>
    if b.address = 0 then .error (.badAddress .null)
    else
      match h : (Buffer.mk b.address (b.bytes.take headerSize)).totalSize with
      | .ok size => cut b size (Buffer.headerSize_le_of_totalSize h)
      | .error e => .error e

/-- The property name stored `off` bytes into the block of names. -/
def stringAt (b : Blob) (off : UInt64) : Except Error Bytes :=
  match (Word.add? b.stringsOffset.toUInt64 off).bind b.bytes.string? with
  | some s => .ok s
  | none => .error .malformed

end Blob
end Devicetree
