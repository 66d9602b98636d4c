import Devicetree.Bytes

/-!
# UTF-8

A byte string is decoded one character at a time. The first byte of a character fixes how many
bytes it has and the range of its second byte; every later byte is a continuation byte. Where no
character can be read, the fault tells the offset of the character and how many of its bytes
could still have begun one, or that the string ended inside it.
-/

namespace Devicetree
namespace Utf8

structure Fault where
  /-- The number of bytes before the faulty character. -/
  validUpTo : Nat
  /-- The length of the faulty sequence, or `none` when the string ends inside it. -/
  length : Option Nat
  deriving DecidableEq

/-- What the first byte of a character promises. -/
inductive Lead
  | one
  | two
  /-- Three bytes, the second within the given bounds. -/
  | three (low high : UInt8)
  /-- Four bytes, the second within the given bounds. -/
  | four (low high : UInt8)
  | none
  deriving DecidableEq

/-- The bounds on a second byte leave out overlong forms, surrogates and numbers past the last
character. -/
def Lead.ofByte (b : UInt8) : Lead :=
  if b < 0x80 then .one
  else if b < 0xc2 then .none
  else if b < 0xe0 then .two
  else if b = 0xe0 then .three 0xa0 0xbf
  else if b = 0xed then .three 0x80 0x9f
  else if b < 0xf0 then .three 0x80 0xbf
  else if b = 0xf0 then .four 0x90 0xbf
  else if b < 0xf4 then .four 0x80 0xbf
  else if b = 0xf4 then .four 0x80 0x8f
  else .none

def isContinuation (b : UInt8) : Bool := 0x80 ≤ b && b ≤ 0xbf

def payload (b : UInt8) : Nat := b.toNat % 64

/-- The characters of a byte string whose first byte is at offset `start`. -/
def decodeFrom (start : Nat) : Bytes → Except Fault (List Char)
  | [] => .ok []
  | a :: rest =>
    match Lead.ofByte a with
    | .none => .error ⟨start, some 1⟩
    | .one => (decodeFrom (start + 1) rest).map (Char.ofNat a.toNat :: ·)
    | .two =>
      match rest with
      | [] => .error ⟨start, none⟩
      | b :: rest =>
        if isContinuation b then
          (decodeFrom (start + 2) rest).map
            (Char.ofNat (a.toNat % 32 * 64 + payload b) :: ·)
        else .error ⟨start, some 1⟩
    | .three low high =>
      match rest with
      | [] => .error ⟨start, none⟩
      | b :: rest =>
        if low ≤ b ∧ b ≤ high then
          match rest with
          | [] => .error ⟨start, none⟩
          | c :: rest =>
            if isContinuation c then
              (decodeFrom (start + 3) rest).map
                (Char.ofNat ((a.toNat % 16 * 64 + payload b) * 64 + payload c) :: ·)
            else .error ⟨start, some 2⟩
        else .error ⟨start, some 1⟩
    | .four low high =>
      match rest with
      | [] => .error ⟨start, none⟩
      | b :: rest =>
        if low ≤ b ∧ b ≤ high then
          match rest with
          | [] => .error ⟨start, none⟩
          | c :: rest =>
            if isContinuation c then
              match rest with
              | [] => .error ⟨start, none⟩
              | d :: rest =>
                if isContinuation d then
                  (decodeFrom (start + 4) rest).map
                    (Char.ofNat (((a.toNat % 8 * 64 + payload b) * 64 + payload c) * 64
                      + payload d) :: ·)
                else .error ⟨start, some 3⟩
            else .error ⟨start, some 2⟩
        else .error ⟨start, some 1⟩

def decode (b : Bytes) : Except Fault String :=
  (decodeFrom 0 b).map String.ofList

def Fault.message (e : Fault) : String :=
  match e.length with
  | some n => s!"invalid utf-8 sequence of {n} bytes from index {e.validUpTo}"
  | none => s!"incomplete utf-8 byte sequence from index {e.validUpTo}"

end Utf8
end Devicetree
