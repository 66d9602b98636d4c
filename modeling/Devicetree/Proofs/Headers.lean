import Devicetree.Proofs.Decoding

/-!
# Headers

A buffer is taken as a blob if it starts with the magic number, is aligned, and its header declares
a blob that it holds. The first of these that fails decides the error. Only the declared size is
looked at, so what comes behind does not matter.
-/

namespace Devicetree
namespace Bytes

variable {b chunk : Bytes} {n m : Nat} {off : UInt64} {w w' size size' : UInt32}

theorem Holds.append_bytes (h : b.Holds n chunk) (more : Bytes) : (b ++ more).Holds n chunk := by
  obtain ⟨before, after, rfl, hn⟩ := h
  exact ⟨before, after ++ more, by simp, hn⟩

theorem Holds.of_take (h : Holds (b.take m) n chunk) : b.Holds n chunk := by
  have hwhole := h.append_bytes (b.drop m)
  rwa [List.take_append_drop] at hwhole

theorem holds_take_iff (hm : n + chunk.length ≤ m) :
    Holds (b.take m) n chunk ↔ b.Holds n chunk := by
  constructor
  · exact Holds.of_take
  · intro h
    have hle := h.add_length_le
    obtain ⟨after, hafter⟩ := h.drop
    apply Holds.of_take_drop
    · rw [List.drop_take, hafter, List.take_take, Nat.min_eq_left (by omega), List.take_left]
    · rw [List.length_take]
      omega

theorem word32?_eq_some_iff (hoff : off.toNat + 4 < UInt64.size) :
    b.word32? off = some w ↔ b.Holds off.toNat (ofWord32 w) := by
  constructor
  · exact holds_of_word32?
  · intro h
    obtain ⟨after, hafter⟩ := h.drop
    have hslice : b.slice? off 4 = some (ofWord32 w) := by
      refine slice?_eq_some_iff.2 ⟨hoff, h.add_length_le, ?_⟩
      rw [hafter]
      exact List.take_left.symm
    rw [word32?, hslice, Option.map_some, bigEndian_ofWord32, UInt32.ofNat_toNat]

theorem holds_word_inj (hoff : n + 4 < UInt64.size) (h : b.Holds n (ofWord32 w))
    (h' : b.Holds n (ofWord32 w')) : w = w' := by
  have hn : (UInt64.ofNat n).toNat = n := UInt64.toNat_ofNat_of_lt' (by omega)
  rw [← hn] at h h' hoff
  have hword := (word32?_eq_some_iff hoff).2 h
  rw [(word32?_eq_some_iff hoff).2 h'] at hword
  exact (Option.some.inj hword).symm

/-- The header in front tells that size, the bytes are as many, and the blocks start among them. -/
structure HoldsBlob (b : Bytes) (size : UInt32) : Prop where
  totalSize : b.Holds 4 (ofWord32 size)
  headerSize_le : headerSize ≤ size.toNat
  le_length : size.toNat ≤ b.length
  structOffset : ∃ off : UInt32, b.Holds 8 (ofWord32 off) ∧ off.toNat % 4 = 0 ∧
    off.toNat < size.toNat
  stringsOffset : ∃ off : UInt32, b.Holds 12 (ofWord32 off) ∧ off.toNat ≤ size.toNat

namespace HoldsBlob

theorem size_eq (h : b.HoldsBlob size) (hsize : b.Holds 4 (ofWord32 size')) : size' = size :=
  holds_word_inj (by decide) hsize h.totalSize

theorem append (h : b.HoldsBlob size) (more : Bytes) : (b ++ more).HoldsBlob size := by
  obtain ⟨struct, hstruct, hstruct'⟩ := h.structOffset
  obtain ⟨strings, hstrings, hstrings'⟩ := h.stringsOffset
  constructor
  case totalSize => exact h.totalSize.append_bytes more
  case headerSize_le => exact h.headerSize_le
  case le_length =>
    rw [List.length_append]
    exact Nat.le_add_right_of_le h.le_length
  case structOffset => exact ⟨struct, hstruct.append_bytes more, hstruct'⟩
  case stringsOffset => exact ⟨strings, hstrings.append_bytes more, hstrings'⟩

end HoldsBlob
end Bytes

open Bytes

theorem Blob.ext {a b : Blob} (haddress : a.address = b.address) (hbytes : a.bytes = b.bytes) :
    a = b := by
  cases a
  cases b
  cases haddress
  cases hbytes
  rfl

/-- What a buffer is taken as. -/
inductive Buffer.Yields (b : Buffer) : Except Error Blob → Prop
  | badMagic : ¬ b.bytes.Holds 0 (ofWord32 magic) → Yields b (.error .badMagic)
  | unaligned : b.bytes.Holds 0 (ofWord32 magic) → b.address % 4 ≠ 0 →
      Yields b (.error (.badAddress .unaligned))
  | malformed : b.bytes.Holds 0 (ofWord32 magic) → b.address % 4 = 0 →
      (∀ size, ¬ b.bytes.HoldsBlob size) → Yields b (.error .malformed)
  | blob {size : UInt32} {blob : Blob} : b.bytes.Holds 0 (ofWord32 magic) → b.address % 4 = 0 →
      b.bytes.HoldsBlob size → blob.address = b.address →
      blob.bytes = b.bytes.take size.toNat → Yields b (.ok blob)

/-- What is vouched for about memory that is given by its address only: the address is not null, a
header is there, and all that the header declares if it is one. -/
structure Buffer.IsReadable (b : Buffer) : Prop where
  address_ne : b.address ≠ 0
  headerSize_le : headerSize ≤ b.bytes.length
  totalSize_le : ∀ size, b.totalSize = .ok size → size.toNat ≤ b.bytes.length

namespace Buffer

variable {b : Buffer} {size : UInt32} {answer answer' : Except Error Blob}

theorem verifyMagic_eq_ok (h : b.bytes.Holds 0 (ofWord32 magic)) : b.verifyMagic = .ok () :=
  if_pos ((word32?_eq_some_iff (by decide)).2 h)

theorem totalSize_of_badMagic (h : ¬ b.bytes.Holds 0 (ofWord32 magic)) :
    b.totalSize = .error .badMagic := by
  have hverify : b.verifyMagic = .error .badMagic :=
    if_neg fun hword => h ((word32?_eq_some_iff (by decide)).1 hword)
  unfold totalSize
  rw [hverify]

theorem totalSize_of_unaligned (hmagic : b.bytes.Holds 0 (ofWord32 magic))
    (h : b.address % 4 ≠ 0) : b.totalSize = .error (.badAddress .unaligned) := by
  unfold totalSize
  rw [verifyMagic_eq_ok hmagic]
  exact if_neg h

/-- An aligned buffer with the magic number has the size that its header tells, unless the header
would not fit it. -/
theorem totalSize_cases (hmagic : b.bytes.Holds 0 (ofWord32 magic)) (h : b.address % 4 = 0) :
    (∃ size, b.totalSize = .ok size ∧ b.bytes.Holds 4 (ofWord32 size)) ∨
      b.totalSize = .error .malformed ∧ ∀ size, ¬ b.bytes.HoldsBlob size := by
  have hword : ∀ {size}, b.bytes.word32? 4 = some size ↔ b.bytes.Holds 4 (ofWord32 size) :=
    word32?_eq_some_iff (by decide)
  unfold totalSize
  rw [verifyMagic_eq_ok hmagic]
  dsimp only
  rw [if_pos h]
  cases hsize : b.bytes.word32? 4 with
  | none =>
    refine .inr ⟨rfl, fun size hblob => ?_⟩
    have hsome := hword.2 hblob.totalSize
    rw [hsize] at hsome
    contradiction
  | some size =>
    by_cases hle : headerSize ≤ size.toNat
    · exact .inl ⟨size, if_pos hle, hword.1 hsize⟩
    · refine .inr ⟨if_neg hle, fun size' hblob => hle ?_⟩
      obtain rfl := hblob.size_eq (hword.1 hsize)
      exact hblob.headerSize_le

theorem totalSize_take (b : Buffer) :
    totalSize ⟨b.address, b.bytes.take headerSize⟩ = b.totalSize := by
  have hword : ∀ off : UInt64, off.toNat + 4 ≤ headerSize →
      Bytes.word32? (b.bytes.take headerSize) off = b.bytes.word32? off := by
    intro off hoff
    have hlt : off.toNat + 4 < UInt64.size := Nat.lt_of_le_of_lt hoff (by decide)
    apply Option.ext
    intro w
    rw [word32?_eq_some_iff hlt, word32?_eq_some_iff hlt, holds_take_iff hoff]
  unfold totalSize verifyMagic
  rw [hword 0 (by decide), hword 4 (by decide)]

theorem Yields.eq (h : b.Yields answer) (h' : b.Yields answer') : answer = answer' := by
  cases h with
  | badMagic => cases h' <;> first | rfl | contradiction
  | unaligned => cases h' <;> first | rfl | contradiction
  | malformed _ _ hnone =>
    cases h' with
    | malformed => rfl
    | blob _ _ hblob => exact absurd hblob (hnone _)
    | badMagic => contradiction
    | unaligned => contradiction
  | blob _ _ hblob haddress hbytes =>
    cases h' with
    | blob _ _ hblob' haddress' hbytes' =>
      obtain rfl := hblob.size_eq hblob'.totalSize
      exact congrArg Except.ok
        (Blob.ext (haddress.trans haddress'.symm) (hbytes.trans hbytes'.symm))
    | malformed _ _ hnone => exact absurd hblob (hnone _)
    | badMagic => contradiction
    | unaligned => contradiction

end Buffer

namespace Blob

variable {b : Blob} {buffer : Buffer} {bytes : Bytes} {m : Nat} {off : UInt64} {w size : UInt32}
  {e : Error} {answer : Except Error Blob}

theorem holds_headerWord (b : Blob) (hoff : off.toNat + 4 ≤ headerSize) :
    b.bytes.Holds off.toNat (ofWord32 (b.headerWord off)) := by
  obtain ⟨w, hw⟩ := exists_word32? b.length_lt_half (Nat.le_trans hoff b.headerSize_le)
  rw [headerWord, hw, Option.getD_some]
  exact holds_of_word32? hw

theorem headerWord_eq_iff (hoff : off.toNat + 4 ≤ headerSize) :
    b.headerWord off = w ↔ b.bytes.Holds off.toNat (ofWord32 w) := by
  have hlt : off.toNat + 4 < UInt64.size := Nat.lt_of_le_of_lt hoff (by decide)
  constructor
  · rintro rfl
    exact b.holds_headerWord hoff
  · exact holds_word_inj hlt (b.holds_headerWord hoff)

/-- The header of a blob that was cut out of some bytes is the one that they start with. -/
theorem headerWord_eq_iff_of_take (hbytes : b.bytes = bytes.take m) (hm : headerSize ≤ m)
    (hoff : off.toNat + 4 ≤ headerSize) :
    b.headerWord off = w ↔ bytes.Holds off.toNat (ofWord32 w) := by
  rw [headerWord_eq_iff hoff, hbytes, holds_take_iff (Nat.le_trans hoff hm)]

theorem holdsBlob_iff (hbytes : b.bytes = bytes.take size.toNat)
    (hsize : bytes.Holds 4 (ofWord32 size)) (hle : size.toNat ≤ bytes.length) :
    bytes.HoldsBlob size ↔ b.structOffset.toNat % 4 = 0 ∧
      b.structOffset.toNat < b.bytes.length ∧ b.stringsOffset.toNat ≤ b.bytes.length := by
  have hlength : b.bytes.length = size.toNat := by
    rw [hbytes, List.length_take, Nat.min_eq_left hle]
  have hheader : headerSize ≤ size.toNat := hlength ▸ b.headerSize_le
  have hstruct : ∀ {w}, b.structOffset = w ↔ bytes.Holds 8 (ofWord32 w) :=
    headerWord_eq_iff_of_take hbytes hheader (by decide)
  have hstrings : ∀ {w}, b.stringsOffset = w ↔ bytes.Holds 12 (ofWord32 w) :=
    headerWord_eq_iff_of_take hbytes hheader (by decide)
  rw [hlength]
  constructor
  · rintro ⟨-, -, -, ⟨struct, hat, hmod, hlt⟩, strings, hat', hle'⟩
    obtain rfl := hstruct.2 hat
    obtain rfl := hstrings.2 hat'
    exact ⟨hmod, hlt, hle'⟩
  · rintro ⟨hmod, hlt, hle'⟩
    exact ⟨hsize, hheader, hle, ⟨_, hstruct.1 rfl, hmod, hlt⟩, _, hstrings.1 rfl, hle'⟩

theorem yields_cut (hmagic : buffer.bytes.Holds 0 (ofWord32 magic))
    (haligned : buffer.address % 4 = 0) (hsize : buffer.bytes.Holds 4 (ofWord32 size))
    (hheader : headerSize ≤ size.toNat) : buffer.Yields (cut buffer size hheader) := by
  unfold cut
  split
  · rename_i hle
    dsimp only
    split
    · rename_i hchecked
      exact .blob hmagic haligned ((holdsBlob_iff rfl hsize hle).2 hchecked) rfl rfl
    · rename_i hchecked
      refine .malformed hmagic haligned fun size' hblob => hchecked ?_
      obtain rfl := hblob.size_eq hsize
      exact (holdsBlob_iff rfl hsize hle).1 hblob
  · rename_i hlt
    refine .malformed hmagic haligned fun size' hblob => hlt ?_
    obtain rfl := hblob.size_eq hsize
    exact hblob.le_length

theorem ofBuffer_of_totalSize (h : buffer.totalSize = .ok size) :
    ofBuffer buffer = cut buffer size (Buffer.headerSize_le_of_totalSize h) := by
  unfold ofBuffer
  split
  · rename_i size' hsize'
    obtain rfl := Except.ok.inj (hsize'.symm.trans h)
    rfl
  · rename_i hsize'
    cases hsize'.symm.trans h

theorem ofBuffer_of_totalSize_eq_error (h : buffer.totalSize = .error e) :
    ofBuffer buffer = .error e := by
  unfold ofBuffer
  split
  · rename_i hsize'
    cases hsize'.symm.trans h
  · rename_i hsize'
    exact congrArg Except.error (Except.error.inj (hsize'.symm.trans h))

theorem yields_ofBuffer (buffer : Buffer) : buffer.Yields (ofBuffer buffer) := by
  by_cases hmagic : buffer.bytes.Holds 0 (ofWord32 magic)
  · by_cases haligned : buffer.address % 4 = 0
    · obtain ⟨size, htotal, hsize⟩ | ⟨htotal, hnone⟩ := Buffer.totalSize_cases hmagic haligned
      · rw [ofBuffer_of_totalSize htotal]
        exact yields_cut hmagic haligned hsize _
      · rw [ofBuffer_of_totalSize_eq_error htotal]
        exact .malformed hmagic haligned hnone
    · rw [ofBuffer_of_totalSize_eq_error (Buffer.totalSize_of_unaligned hmagic haligned)]
      exact .unaligned hmagic haligned
  · rw [ofBuffer_of_totalSize_eq_error (Buffer.totalSize_of_badMagic hmagic)]
    exact .badMagic hmagic

/-- A buffer is taken as one thing only, by the first check that fails. -/
theorem ofBuffer_eq_iff : ofBuffer buffer = answer ↔ buffer.Yields answer := by
  constructor
  · rintro rfl
    exact yields_ofBuffer buffer
  · exact (yields_ofBuffer buffer).eq

theorem exists_holdsBlob (h : ofBuffer buffer = .ok b) :
    ∃ size, buffer.bytes.Holds 0 (ofWord32 magic) ∧ buffer.bytes.HoldsBlob size ∧
      b.bytes = buffer.bytes.take size.toNat := by
  cases ofBuffer_eq_iff.1 h with
  | blob hmagic _ hblob _ hbytes => exact ⟨_, hmagic, hblob, hbytes⟩

theorem header_of_ofBuffer (h : ofBuffer buffer = .ok b) :
    b.magicNumber = magic ∧ b.totalSize.toNat = b.bytes.length ∧ b.structOffset.toNat % 4 = 0 := by
  obtain ⟨size, hmagic, hblob, hbytes⟩ := exists_holdsBlob h
  have hchecked := (holdsBlob_iff hbytes hblob.totalSize hblob.le_length).1 hblob
  have htotal : b.totalSize = size :=
    (headerWord_eq_iff_of_take hbytes hblob.headerSize_le (by decide)).2 hblob.totalSize
  refine ⟨?_, ?_, hchecked.1⟩
  · exact (headerWord_eq_iff_of_take hbytes hblob.headerSize_le (by decide)).2 hmagic
  · rw [htotal, hbytes, List.length_take, Nat.min_eq_left hblob.le_length]

def movedTo (b : Blob) (address : Nat) : Blob := { b with address }

theorem ofBuffer_append (h : ofBuffer buffer = .ok b) (more : Bytes) {address : Nat}
    (haligned : address % 4 = 0) :
    ofBuffer ⟨address, buffer.bytes ++ more⟩ = .ok (b.movedTo address) := by
  cases ofBuffer_eq_iff.1 h with
  | blob hmagic _ hblob _ hbytes =>
    refine ofBuffer_eq_iff.2 (.blob (hmagic.append_bytes more) haligned (hblob.append more) rfl ?_)
    exact hbytes.trans (List.take_append_of_le_length hblob.le_length).symm

/-- Memory at an address is taken as a buffer of it is, though only a header is looked at first. -/
theorem ofMemory_some (h : buffer.address ≠ 0) : ofMemory (some buffer) = ofBuffer buffer := by
  have htotal := buffer.totalSize_take
  unfold ofMemory
  dsimp only
  rw [if_neg h]
  split
  · rename_i size hsize
    rw [ofBuffer_of_totalSize (htotal.symm.trans hsize)]
  · rename_i e herror
    rw [ofBuffer_of_totalSize_eq_error (htotal.symm.trans herror)]

theorem ofBuffer_of_ofMemory (h : ofMemory (some buffer) = .ok b) : ofBuffer buffer = .ok b := by
  by_cases hnull : buffer.address = 0
  · simp [ofMemory, hnull] at h
  · rw [← ofMemory_some hnull, h]

end Blob
end Devicetree
