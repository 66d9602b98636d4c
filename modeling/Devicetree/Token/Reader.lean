import Devicetree.Blob
import Devicetree.Token

/-!
# Reading a blob's tokens

A reader walks a blob's structure block. It does not stop at the end token or at a failure: the
next read goes on from wherever the offset was left. The stream of a reader is what it answers
up to the first of the two; it is finite because every token takes at least a word.
-/

namespace Devicetree
namespace Token

structure Reader where
  blob : Blob
  offset : UInt64

/-- The tokens before the end token, or before the first failure. -/
structure Stream where
  tokens : List Token
  outcome : Except Error Unit

namespace Reader

def ofBlob (b : Blob) : Reader := ⟨b, b.structOffset.toUInt64⟩

def next (r : Reader) : Except Error (Option Token) × Reader :=
  let (answer, off) := read r.blob.bytes r.blob.isLegacy r.offset
  (answer, { r with offset := off })

def peek (r : Reader) : Except Error (Option Token) := r.next.1

def remaining (r : Reader) : Nat := r.blob.bytes.length - r.offset.toNat

end Reader

theorem readName_lt {bytes name : Bytes} {legacy : Bool} {off stop : UInt64}
    (hlength : bytes.length < UInt32.size) (hoff : off.toNat ≤ bytes.length)
    (h : readName bytes legacy off = some (name, stop)) : off.toNat < stop.toNat := by
  obtain ⟨s, hs, heq⟩ := Option.map_eq_some_iff.1 h
  cases heq
  have hword : UInt32.size = 2 ^ 32 := rfl
  have hlt : name.length < UInt32.size := by
    split at hs
    · have := Bytes.length_of_untilNul? hs
      simp only [List.length_drop] at this
      omega
    · have := Bytes.length_of_untilNul? hs
      simp only [List.length_take, List.length_drop] at this
      omega
  have hsum : (off + (UInt64.ofNat name.length + 1)).toNat = off.toNat + (name.length + 1) := by
    have h1 : (1 : UInt64).toNat = 1 := rfl
    rw [UInt64.toNat_add, UInt64.toNat_add, UInt64.toNat_ofNat', h1]
    omega
  have hsize : UInt64.size = 2 ^ 64 := rfl
  rw [Word.toNat_alignUp (n := 4) rfl ⟨2, rfl⟩ (by omega), hsum]
  omega

theorem le_valueStart {legacy : Bool} {length : UInt32} {off : UInt64}
    (hoff : off.toNat + 8 ≤ UInt64.size) :
    off.toNat ≤ (valueStart legacy length off).toNat := by
  have hsize : UInt64.size = 2 ^ 64 := rfl
  unfold valueStart
  split
  · split
    · rw [Word.toNat_alignUp (n := 8) rfl ⟨3, rfl⟩ (by omega)]
      omega
    · rw [Word.toNat_alignUp (n := 4) rfl ⟨2, rfl⟩ (by omega)]
      omega
  · exact Nat.le_refl _

theorem readProperty_lt {bytes value : Bytes} {legacy : Bool} {off stop : UInt64}
    {nameOffset : UInt32} (hlength : bytes.length < UInt32.size)
    (h : readProperty bytes legacy off = (some (nameOffset, value), stop)) :
    off.toNat < stop.toNat := by
  have hword : UInt32.size = 2 ^ 32 := rfl
  unfold readProperty at h
  split at h
  · rename_i length nameOffset' hword _
    have hoff := Bytes.add_le_of_word32? hword
    dsimp only at h
    split at h
    · rename_i value' hslice
      cases h
      obtain ⟨hvalue, hstop⟩ := Bytes.length_of_slice? hslice
      have h8 : (off + 8).toNat = off.toNat + 8 := by
        have : (8 : UInt64).toNat = 8 := rfl
        rw [UInt64.toNat_add, this]
        omega
      have hsize : UInt64.size = 2 ^ 64 := rfl
      have hstart : (off + 8).toNat ≤ (valueStart legacy length (off + 8)).toNat :=
        le_valueStart (by omega)
      have hsum : (valueStart legacy length (off + 8) + UInt64.ofNat value.length).toNat
          = (valueStart legacy length (off + 8)).toNat + value.length := by
        rw [UInt64.toNat_add, UInt64.toNat_ofNat']
        omega
      rw [Word.toNat_alignUp (n := 4) rfl ⟨2, rfl⟩ (by omega), hsum]
      omega
    · simp at h
  · simp at h

/-- A token takes at least its tag. -/
theorem read_lt {bytes : Bytes} {legacy : Bool} {off stop : UInt64} {t : Token}
    (hlength : bytes.length < UInt32.size) (h : read bytes legacy off = (.ok (some t), stop)) :
    off.toNat < stop.toNat ∧ off.toNat < bytes.length := by
  have hword : UInt32.size = 2 ^ 32 := rfl
  unfold read at h
  split at h
  · simp at h
  · rename_i tag htag
    have hoff := Bytes.add_le_of_word32? htag
    have h4 : (off + 4).toNat = off.toNat + 4 := by
      have : (4 : UInt64).toNat = 4 := rfl
      rw [UInt64.toNat_add, this]
      omega
    refine ⟨?_, by omega⟩
    simp only at h
    repeat' split at h
    · rename_i name stop' hname
      cases h
      have := readName_lt hlength (by omega) hname
      omega
    · simp at h
    · cases h
      omega
    · rename_i nameOffset value stop' hprop
      cases h
      have := readProperty_lt hlength hprop
      omega
    · simp at h
    · cases h
      omega
    · simp at h
    · simp at h

namespace Reader

theorem remaining_next_lt {r : Reader} {t : Token} (h : r.next.1 = .ok (some t)) :
    r.next.2.remaining < r.remaining := by
  have hread : read r.blob.bytes r.blob.isLegacy r.offset = (.ok (some t), r.next.2.offset) :=
    Prod.ext h rfl
  have := read_lt r.blob.length_lt hread
  have hblob : r.next.2.blob = r.blob := rfl
  unfold remaining
  rw [hblob]
  omega

def stream (r : Reader) : Stream :=
  match _h : r.next.1 with
  | .ok (some t) =>
    let rest := r.next.2.stream
    { rest with tokens := t :: rest.tokens }
  | .ok none => ⟨[], .ok ()⟩
  | .error e => ⟨[], .error e⟩
termination_by r.remaining
decreasing_by exact remaining_next_lt _h

end Reader
end Token

def Blob.tokens (b : Blob) : Token.Stream := (Token.Reader.ofBlob b).stream

end Devicetree
