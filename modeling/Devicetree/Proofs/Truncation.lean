import Devicetree.Proofs.Grammar
import Devicetree.Proofs.Headers
import Devicetree.Proofs.Fidelity

/-!
# Truncated blobs

A blob that declares fewer bytes than its tokens take cannot be built. A read from the cut bytes
fails or is the read from all of them, so a build that got to an end token in the cut would have
got to the same one in the whole, and that one lies outside of the cut. Only the header's own words
differ, and no token is read from those: as tags they mean nothing.
-/

namespace Devicetree
namespace Bytes

variable {cut full name : Bytes} {n limit : Nat} {off : UInt64}

theorem untilNul?_of_isPrefix (h : cut <+: full) (hname : untilNul? cut = some name) :
    untilNul? full = some name := by
  obtain ⟨more, rfl⟩ := h
  obtain ⟨hnul, rest, rfl⟩ := untilNul?_eq_some_iff.1 hname
  exact untilNul?_eq_some_iff.2 ⟨hnul, rest ++ more, by simp⟩

theorem IsCut.string? (h : IsCut n cut full) (hoff : n ≤ off.toNat)
    (hname : cut.string? off = some name) : full.string? off = some name :=
  untilNul?_of_isPrefix (h.drop hoff) hname

theorem IsCut.stringWithin? (h : IsCut n cut full) (hoff : n ≤ off.toNat)
    (hname : cut.stringWithin? off limit = some name) :
    full.stringWithin? off limit = some name :=
  untilNul?_of_isPrefix ((h.drop hoff).take limit) hname

theorem IsCut.word32?_eq (h : IsCut n cut full) (hcut : cut.length < 2 ^ 63) (hn : n ≤ off.toNat)
    (hoff : off.toNat + 4 ≤ cut.length) : cut.word32? off = full.word32? off := by
  obtain ⟨w, hw⟩ := exists_word32? hcut hoff
  rw [hw, h.word32? hn hw]

/-- The bytes with another size in their header. -/
def withTotalSize (b : Bytes) (size : UInt32) : Bytes := b.take 4 ++ ofWord32 size ++ b.drop 8

theorem drop_withTotalSize {b : Bytes} (size : UInt32) (hb : 8 ≤ b.length) :
    (b.withTotalSize size).drop 8 = b.drop 8 := by
  refine List.drop_left' ?_
  rw [List.length_append, List.length_take, length_ofWord32]
  omega

theorem word32?_withTotalSize {b : Bytes} {size w : UInt32} (hb : 8 ≤ b.length)
    (hw : (b.withTotalSize size).word32? 4 = some w) : w = size := by
  obtain ⟨s, hs, rfl⟩ := Option.map_eq_some_iff.1 hw
  obtain ⟨-, -, rfl⟩ := slice?_eq_some_iff.1 hs
  have hdrop : (b.withTotalSize size).drop (4 : UInt64).toNat = ofWord32 size ++ b.drop 8 := by
    rw [withTotalSize, List.append_assoc]
    refine List.drop_left' ?_
    rw [List.length_take]
    exact Nat.min_eq_left (by omega)
  have htake : (ofWord32 size ++ b.drop 8).take (4 : UInt64).toNat = ofWord32 size :=
    List.take_left' rfl
  rw [hdrop, htake, bigEndian_ofWord32, UInt32.ofNat_toNat]

end Bytes

namespace Token

open Bytes

variable {cut full : Bytes} {n : Nat} {off stop : UInt64} {legacy : Bool}

theorem readName_of_isCut {r : Bytes × UInt64} (h : IsCut n cut full) (hoff : n ≤ off.toNat)
    (hr : readName cut legacy off = some r) : readName full legacy off = some r := by
  obtain ⟨name, hname, rfl⟩ := Option.map_eq_some_iff.1 hr
  refine Option.map_eq_some_iff.2 ⟨name, ?_, rfl⟩
  cases legacy with
  | true => exact h.string? hoff hname
  | false => exact h.stringWithin? hoff hname

theorem readProperty_of_isCut {r : UInt32 × Bytes} (h : IsCut n cut full)
    (hfull : full.length < 2 ^ 32) (hoff : n ≤ off.toNat)
    (hr : readProperty cut legacy off = (some r, stop)) :
    readProperty full legacy off = (some r, stop) := by
  have hsize : UInt64.size = 2 ^ 64 := rfl
  unfold readProperty at hr
  split at hr
  · rename_i length nameOffset hlength hname
    have hle := add_le_of_word32? hlength
    have hcut := h.length_le
    have hfour : (off + 4).toNat = off.toNat + 4 := Word.toNat_add rfl rfl (by omega)
    have height : (off + 8).toNat = off.toNat + 8 := Word.toNat_add rfl rfl (by omega)
    dsimp only at hr
    split at hr
    · rename_i value hvalue
      have hstart : (off + 8).toNat ≤ (valueStart legacy length (off + 8)).toNat :=
        le_valueStart (by omega)
      unfold readProperty
      rw [h.word32? hoff hlength, h.word32? (by omega) hname]
      dsimp only
      rw [h.slice? (by omega) hvalue]
      exact hr
    · cases hr
  · cases hr

theorem read_of_isCut {t : Option Token} (h : IsCut n cut full) (hfull : full.length < 2 ^ 32)
    (hoff : n ≤ off.toNat) (hr : read cut legacy off = (.ok t, stop)) :
    read full legacy off = (.ok t, stop) := by
  unfold read at hr ⊢
  split at hr
  · cases hr
  · rename_i tag htag
    have hle := add_le_of_word32? htag
    have hcut := h.length_le
    have hfour : n ≤ (off + 4).toNat := by
      rw [Word.toNat_add rfl rfl (Nat.lt_of_le_of_lt hle (by omega))]
      exact Nat.le_trans hoff (Nat.le_add_right _ _)
    rw [h.word32? hoff htag]
    dsimp only at hr ⊢
    split_ifs at hr ⊢ with hbegin hend hproperty
    · split at hr
      · rename_i hname
        rw [readName_of_isCut h hfour hname]
        exact hr
      · cases hr
    · exact hr
    · split at hr
      · rename_i hprop
        rw [readProperty_of_isCut h hfull hfour hprop]
        exact hr
      · cases hr
    · exact hr
    · exact hr
    · cases hr

def tags : List UInt32 := [beginNodeTag, endNodeTag, propertyTag, nopTag, endTag]

theorem toNat_of_mem_tags {tag : UInt32} (h : tag ∈ tags) : tag.toNat ≤ 9 ∧ tag.toNat ≠ 8 := by
  simp only [tags, List.mem_cons, List.not_mem_nil, or_false] at h
  rcases h with rfl | rfl | rfl | rfl | rfl <;> decide

theorem mem_tags_of_read {t : Option Token} (h : (read full legacy off).1 = .ok t) :
    ∃ tag, full.word32? off = some tag ∧ tag ∈ tags := by
  unfold read at h
  split at h
  · cases h
  · rename_i tag htag
    refine ⟨tag, htag, ?_⟩
    by_contra hnot
    simp only [tags, List.mem_cons, List.not_mem_nil, or_false, not_or] at hnot
    obtain ⟨hbegin, hend, hproperty, hnop, hstop⟩ := hnot
    simp [hbegin, hend, hproperty, hnop, hstop] at h

theorem read_eq_none (h : read full legacy off = (.ok none, stop)) :
    full.word32? off = some endTag ∧ stop = off + 4 := by
  unfold read at h
  split at h
  · cases h
  · rename_i tag htag
    dsimp only at h
    split_ifs at h with hbegin hend hproperty hnop hstop
    · split at h <;> cases h
    · cases h
    · split at h <;> cases h
    · cases h
    · cases h
      exact ⟨hstop ▸ htag, rfl⟩
    · cases h

namespace Reader

def after (r : Reader) : Nat → Reader
  | 0 => r
  | k + 1 => r.next.2.after k

/-- The offset behind the read that ends the stream. -/
def endOffset (r : Reader) : UInt64 := (r.after (r.stream.tokens.length + 1)).offset

theorem endOffset_of_next {r : Reader} {t : Token} (h : r.next.1 = .ok (some t)) :
    r.endOffset = r.next.2.endOffset := by
  unfold endOffset
  rw [stream_of_next h]
  rfl

theorem endOffset_of_next_none {r : Reader} (h : r.next.1 = .ok none) :
    r.endOffset = r.next.2.offset := by
  unfold endOffset
  rw [stream_of_next_none h]
  rfl

theorem word32?_endOffset {r : Reader} (h : r.stream.outcome = .ok ()) :
    r.blob.bytes.word32? (r.endOffset - 4) = some endTag ∧
      r.endOffset.toNat ≤ r.blob.bytes.length := by
  fun_induction stream r with
  | case1 r t hnext rest ih =>
    rw [endOffset_of_next hnext]
    exact ih h
  | case2 r hnext =>
    obtain ⟨htag, hstop⟩ := read_eq_none (Prod.ext hnext rfl)
    rw [endOffset_of_next_none hnext, show r.next.2.offset = r.offset + 4 from hstop]
    refine ⟨by rwa [UInt64.add_sub_cancel], ?_⟩
    have hle := add_le_of_word32? htag
    have hlt := r.blob.length_lt_half
    rw [Word.toNat_add rfl rfl (Nat.lt_of_le_of_lt hle (by omega))]
    exact hle
  | case3 r e hnext => cases h

section Cut

variable {r : Reader} {b : Blob}

theorem next_of_isCut {t : Option Token} (h : IsCut n r.blob.bytes b.bytes)
    (hlegacy : r.blob.isLegacy = b.isLegacy) (hoff : n ≤ r.offset.toNat)
    (hnext : r.next.1 = .ok t) : Reader.next ⟨b, r.offset⟩ = (.ok t, ⟨b, r.next.2.offset⟩) := by
  have hread : read r.blob.bytes r.blob.isLegacy r.offset = (.ok t, r.next.2.offset) :=
    Prod.ext hnext rfl
  rw [hlegacy] at hread
  have hfull := read_of_isCut h b.length_lt hoff hread
  unfold next at hfull ⊢
  dsimp only
  rw [hfull]

theorem stream_of_isCut (r : Reader) (h : IsCut n r.blob.bytes b.bytes)
    (hlegacy : r.blob.isLegacy = b.isLegacy) (hoff : n ≤ r.offset.toNat)
    (hr : r.stream.outcome = .ok ()) :
    Reader.stream ⟨b, r.offset⟩ = r.stream ∧ Reader.endOffset ⟨b, r.offset⟩ = r.endOffset := by
  fun_induction stream r with
  | case1 r t hnext rest ih =>
    have hread : read r.blob.bytes r.blob.isLegacy r.offset = (.ok (some t), r.next.2.offset) :=
      Prod.ext hnext rfl
    have hlt := (read_lt r.blob.length_lt hread).1
    obtain ⟨hstream, hend⟩ := ih h hlegacy (by omega) hr
    have hfull := next_of_isCut h hlegacy hoff hnext
    have hone : (Reader.next ⟨b, r.offset⟩).1 = .ok (some t) := by rw [hfull]
    rw [stream_of_next hone, endOffset_of_next hone, endOffset_of_next hnext, hfull, hstream]
    exact ⟨rfl, hend⟩
  | case2 r hnext =>
    have hfull := next_of_isCut h hlegacy hoff hnext
    have hone : (Reader.next ⟨b, r.offset⟩).1 = .ok none := by rw [hfull]
    rw [stream_of_next_none hone, endOffset_of_next_none hone, endOffset_of_next_none hnext, hfull]
    exact ⟨rfl, rfl⟩
  | case3 r e hnext => cases hr

end Cut

theorem exists_next_of_outcome {r : Reader} (h : r.stream.outcome = .ok ()) :
    ∃ t, r.next.1 = .ok t := by
  rw [stream] at h
  split at h
  · exact ⟨_, ‹_›⟩
  · exact ⟨_, ‹_›⟩
  · cases h

end Reader
end Token

namespace Blob

variable {buffer : Buffer} {b b' : Blob} {n : Nat} {off : UInt64}

theorem headerWord_of_isCut (h : Bytes.IsCut n b'.bytes b.bytes) (hn : n ≤ off.toNat)
    (hoff : off.toNat + 4 ≤ headerSize) : b'.headerWord off = b.headerWord off := by
  have hle := b'.headerSize_le
  rw [headerWord, headerWord, h.word32?_eq b'.length_lt_half hn (by omega)]

/-- No token starts with the magic number, a size or the offset of the first token, so a structure
block that begins with one of these words cannot be read. -/
theorem twelve_le_structOffset (h : ofBuffer buffer = .ok b) (hread : b.tokens.outcome = .ok ()) :
    12 ≤ b.structOffset.toNat := by
  obtain ⟨hmagic, hsize, hmod⟩ := header_of_ofBuffer h
  have hheader : 40 ≤ b.bytes.length := b.headerSize_le
  obtain ⟨t, ht⟩ := Token.Reader.exists_next_of_outcome hread
  have hread : (Token.read b.bytes b.isLegacy b.structOffset.toUInt64).1 = .ok t := ht
  obtain ⟨tag, htag, hmem⟩ := Token.mem_tags_of_read hread
  have hfirst : b.headerWord b.structOffset.toUInt64 = tag := congrArg (·.getD 0) htag
  have hword : ∀ w : UInt32, b.structOffset.toNat = w.toNat → b.headerWord w.toUInt64 = tag :=
    fun w hw => UInt32.toNat_inj.1 hw ▸ hfirst
  obtain ⟨hnine, height⟩ := Token.toNat_of_mem_tags hmem
  by_contra hlt
  have hoff : b.structOffset.toNat = 0 ∨ b.structOffset.toNat = 4 ∨ b.structOffset.toNat = 8 := by
    omega
  rcases hoff with hoff | hoff | hoff
  · have htag : b.magicNumber = tag := hword 0 hoff
    rw [← htag, hmagic] at hnine
    exact absurd hnine (by decide)
  · have htag : b.totalSize = tag := hword 4 hoff
    rw [htag] at hsize
    omega
  · have htag : b.structOffset = tag := hword 8 hoff
    exact height (htag ▸ hoff)

/-- The offset behind the end token. -/
def endOffset (b : Blob) : UInt64 := (Token.Reader.ofBlob b).endOffset

theorem word32?_endOffset (h : b.tokens.outcome = .ok ()) :
    b.bytes.word32? (b.endOffset - 4) = some Token.endTag ∧ b.endOffset.toNat ≤ b.bytes.length :=
  Token.Reader.word32?_endOffset h

theorem tokens_of_isCut (h : Bytes.IsCut 8 b'.bytes b.bytes) (hoff : 8 ≤ b'.structOffset.toNat)
    (hread : b'.tokens.outcome = .ok ()) :
    b.tokens = b'.tokens ∧ b.endOffset = b'.endOffset := by
  have hstruct : b'.structOffset = b.structOffset :=
    headerWord_of_isCut h (Nat.le_refl 8) (by decide)
  have hversion : b'.headerWord 20 = b.headerWord 20 :=
    headerWord_of_isCut h (by decide) (by decide)
  have hlegacy : b'.isLegacy = b.isLegacy := by
    rw [isLegacy, isLegacy, version, version, hversion]
  have hreader : Token.Reader.ofBlob b = ⟨b, b'.structOffset.toUInt64⟩ := by
    rw [Token.Reader.ofBlob, hstruct]
  rw [tokens, endOffset, hreader]
  exact Token.Reader.stream_of_isCut (.ofBlob b') h hlegacy hoff hread

theorem isCut_of_withTotalSize {size : UInt32} {address : Nat}
    (hb : ofBuffer buffer = .ok b)
    (hb' : ofBuffer ⟨address, (buffer.bytes.withTotalSize size).take n⟩ = .ok b')
    (hsize : size.toNat ≤ b.bytes.length) :
    Bytes.IsCut 8 b'.bytes b.bytes ∧ b'.bytes.length ≤ size.toNat := by
  obtain ⟨total, -, hblob, hbytes⟩ := exists_holdsBlob hb
  obtain ⟨total', -, hblob', hbytes'⟩ := exists_holdsBlob hb'
  have hle := hblob.le_length
  have hforty : headerSize = 40 := rfl
  have hheader := b.headerSize_le
  have hlength : b.bytes.length = total.toNat := by
    rw [hbytes, List.length_take]
    exact Nat.min_eq_left hle
  have hwhole : (buffer.bytes.withTotalSize size).word32? 4 = some total' :=
    (Bytes.word32?_eq_some_iff (by decide)).2 hblob'.totalSize.of_take
  obtain rfl := Bytes.word32?_withTotalSize (by omega) hwhole
  have hlength' : b'.bytes.length = total'.toNat := by
    rw [hbytes', List.length_take]
    exact Nat.min_eq_left hblob'.le_length
  refine ⟨⟨by omega, ?_⟩, Nat.le_of_eq hlength'⟩
  rw [hbytes', hbytes, List.take_take, List.drop_take, List.drop_take,
    Bytes.drop_withTotalSize _ (by omega)]
  exact List.take_prefix_take_left (by omega)

end Blob

namespace Build

theorem outcome_of_build {b : Blob} {heap : Heap} {t : Tree} (h : (build b heap).result = .ok t) :
    b.tokens.outcome = .ok () := by
  obtain ⟨-, hending, -⟩ := draft_of_build h
  exact (Outline.ending_eq_complete_iff_grammatical.1 hending).outcome

/-- Let a blob be built whose end token ends at `e`. If its header is made to tell a size below `e`,
and any number of bytes is left of it, then it is no blob or it cannot be built, whatever memory
there is. -/
theorem refused_of_truncated {buffer : Buffer} {b : Blob} {heap : Heap} {t : Tree}
    (hb : Blob.ofBuffer buffer = .ok b) (ht : (build b heap).result = .ok t) :
    b.bytes.word32? (b.endOffset - 4) = some Token.endTag ∧
    b.endOffset.toNat ≤ b.bytes.length ∧
    ∀ size : UInt32, size.toNat < b.endOffset.toNat → ∀ address n,
      (∃ e, Blob.ofBuffer ⟨address, (buffer.bytes.withTotalSize size).take n⟩ = .error e) ∨
      ∃ b', Blob.ofBuffer ⟨address, (buffer.bytes.withTotalSize size).take n⟩ = .ok b' ∧
        ∀ other, ∃ e, (build b' other).result = .error e := by
  obtain ⟨htag, hle⟩ := Blob.word32?_endOffset (outcome_of_build ht)
  refine ⟨htag, hle, fun size hsize address n => ?_⟩
  cases hb' : Blob.ofBuffer ⟨address, (buffer.bytes.withTotalSize size).take n⟩ with
  | error e => exact .inl ⟨e, rfl⟩
  | ok b' =>
    refine .inr ⟨b', rfl, fun other => ?_⟩
    cases hother : (build b' other).result with
    | error e => exact ⟨e, rfl⟩
    | ok t' =>
      have hread := outcome_of_build hother
      have htwelve := Blob.twelve_le_structOffset hb' hread
      obtain ⟨hcut, hlength⟩ := Blob.isCut_of_withTotalSize hb hb' (by omega)
      obtain ⟨-, hend⟩ := Blob.tokens_of_isCut hcut (by omega) hread
      obtain ⟨-, hinside⟩ := Blob.word32?_endOffset hread
      rw [hend] at hsize
      omega

/-- A root with one property and one child, and a name in front of the tokens, which a cut leaves
in place. -/
def sampleNamesFirst : Bytes :=
  List.flatMap Bytes.ofWord32
    [0xd00dfeed, 104, 48, 40, 40, 17, 16, 0, 4, 56, 0x72656700, 0,
      1, 0, 3, 4, 0, 1, 1, 0x61403100, 2, 2, 4, 4, 4, 9]

theorem refused_of_truncated_sample :
    ∃ b t b' e, Blob.ofBuffer ⟨0x1000, sampleNamesFirst⟩ = .ok b ∧
      (build b (.fresh 0)).result = .ok t ∧ b.endOffset = 104 ∧
      Blob.ofBuffer ⟨0x1000, (sampleNamesFirst.withTotalSize 100).take 100⟩ = .ok b' ∧
      (build b' (.fresh 0)).result = .error e := by
  have hbuilt : (Blob.ofBuffer ⟨0x1000, sampleNamesFirst⟩).toOption.map
      (fun b => ((build b (.fresh 0)).result.toOption.map Tree.nodeCount, b.endOffset)) =
        some (some 2, 104) := by
    decide +kernel
  have hcut : (Blob.ofBuffer ⟨0x1000, (sampleNamesFirst.withTotalSize 100).take 100⟩).toOption.map
      Blob.address = some 0x1000 := by
    decide +kernel
  obtain ⟨b, hb, hasked⟩ := exists_of_result hbuilt
  obtain ⟨hcount, hend⟩ := Prod.mk.inj hasked
  obtain ⟨t, ht, -⟩ := exists_of_result hcount
  obtain ⟨b', hb', -⟩ := exists_of_result hcut
  obtain ⟨-, -, hrefused⟩ := refused_of_truncated hb ht
  rcases hrefused 100 (by rw [hend]; decide) 0x1000 100 with ⟨e, he⟩ | ⟨b'', hb'', hother⟩
  · cases he.symm.trans hb'
  · obtain ⟨e, he⟩ := hother (.fresh 0)
    exact ⟨b, t, b'', e, hb, ht, hend, hb'', he⟩

end Build
end Devicetree
