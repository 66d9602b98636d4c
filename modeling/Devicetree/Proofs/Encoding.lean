import Devicetree.Token.Reader
import Mathlib.Algebra.Group.Nat.Defs
import Mathlib.Data.List.Infix

/-!
# Encoding

How numbers, names and tokens are written into a blob, and that reading gives them back. What is
written leaves choices: padding may hold any bytes, and what stands around a token does not matter
to it.
-/

namespace Devicetree

theorem Word.toNat_add {a b : UInt64} {m n : Nat} (ha : a.toNat = m) (hb : b.toNat = n)
    (h : m + n < 2 ^ 64) : (a + b).toNat = m + n := by
  rw [UInt64.toNat_add, ha, hb]
  exact Nat.mod_eq_of_lt h

namespace Bytes

/-- A word as four bytes, the leading one first. -/
def ofWord32 (w : UInt32) : Bytes :=
  [(w >>> 24).toUInt8, (w >>> 16).toUInt8, (w >>> 8).toUInt8, w.toUInt8]

@[simp] theorem length_ofWord32 (w : UInt32) : (ofWord32 w).length = 4 := rfl

theorem bigEndian_ofWord32 (w : UInt32) : bigEndian (ofWord32 w) = w.toNat := by
  have hw := w.toNat_lt
  simp only [bigEndian, ofWord32, List.foldl_cons, List.foldl_nil, UInt32.toNat_toUInt8,
    UInt32.toNat_shiftRight, Nat.shiftRight_eq_div_pow]
  simp
  omega

/-- The chunk stands at an offset. -/
def Holds (b : Bytes) (off : Nat) (chunk : Bytes) : Prop :=
  ∃ before after, b = before ++ chunk ++ after ∧ before.length = off

variable {b chunk name : Bytes} {n : Nat} {off length : UInt64}

namespace Holds

theorem left {first second : Bytes} (h : b.Holds n (first ++ second)) : b.Holds n first := by
  obtain ⟨before, after, rfl, hn⟩ := h
  exact ⟨before, second ++ after, by simp, hn⟩

theorem right {first second : Bytes} (h : b.Holds n (first ++ second)) :
    b.Holds (n + first.length) second := by
  obtain ⟨before, after, rfl, hn⟩ := h
  refine ⟨before ++ first, after, by simp, ?_⟩
  rw [List.length_append, hn]

theorem add_length_le (h : b.Holds n chunk) : n + chunk.length ≤ b.length := by
  obtain ⟨before, after, rfl, rfl⟩ := h
  simp only [List.length_append]
  omega

theorem drop (h : b.Holds n chunk) : ∃ after, b.drop n = chunk ++ after := by
  obtain ⟨before, after, rfl, rfl⟩ := h
  exact ⟨after, by simp⟩

theorem of_take_drop (h : (b.drop n).take chunk.length = chunk) (hn : n ≤ b.length) :
    b.Holds n chunk := by
  have hsplit := List.take_append_drop chunk.length (b.drop n)
  rw [h] at hsplit
  refine ⟨b.take n, (b.drop n).drop chunk.length, ?_, List.length_take_of_le hn⟩
  rw [List.append_assoc, hsplit, List.take_append_drop]

theorem slice? (h : b.Holds n chunk) (hb : b.length < 2 ^ 63) (hoff : off.toNat = n)
    (hlength : length.toNat = chunk.length) : b.slice? off length = some chunk := by
  have hle := h.add_length_le
  have hsize : UInt64.size = 2 ^ 64 := rfl
  obtain ⟨after, hdrop⟩ := h.drop
  apply slice?_eq_some_iff.2
  refine ⟨by omega, by omega, ?_⟩
  rw [hoff, hlength, hdrop, List.take_left]

theorem word32? {w : UInt32} (h : b.Holds n (ofWord32 w)) (hb : b.length < 2 ^ 63)
    (hoff : off.toNat = n) : b.word32? off = some w := by
  have hslice : b.slice? off 4 = some (ofWord32 w) := h.slice? hb hoff rfl
  rw [Bytes.word32?, hslice, Option.map_some, bigEndian_ofWord32, UInt32.ofNat_toNat]

theorem string? (h : b.Holds n (name ++ [0])) (hname : 0 ∉ name) (hoff : off.toNat = n) :
    b.string? off = some name := by
  obtain ⟨after, hdrop⟩ := h.drop
  rw [Bytes.string?, hoff, hdrop, untilNul?_eq_some_iff]
  exact ⟨hname, after, by simp⟩

theorem stringWithin? {limit : Nat} (h : b.Holds n (name ++ [0])) (hname : 0 ∉ name)
    (hoff : off.toNat = n) (hlimit : name.length < limit) :
    b.stringWithin? off limit = some name := by
  obtain ⟨after, hdrop⟩ := h.drop
  rw [Bytes.stringWithin?, hoff, hdrop, untilNul?_eq_some_iff]
  refine ⟨hname, after.take (limit - (name.length + 1)), ?_⟩
  rw [List.take_append, List.take_of_length_le (by simpa using Nat.succ_le_of_lt hlimit)]
  simp

end Holds

theorem length_flatMap_ofWord32 (words : List UInt32) :
    (words.flatMap ofWord32).length = 4 * words.length := by
  induction words with
  | nil => rfl
  | cons w words ih =>
    rw [List.flatMap_cons, List.length_append, ih, length_ofWord32, List.length_cons]
    omega

theorem holds_flatMap_ofWord32 {words : List UInt32} {n : Nat} {w : UInt32}
    (h : words[n]? = some w) (rest : Bytes) :
    Holds (words.flatMap ofWord32 ++ rest) (4 * n) (ofWord32 w) := by
  obtain ⟨hn, rfl⟩ := List.getElem?_eq_some_iff.1 h
  have hsplit := List.take_append_drop n words
  rw [List.drop_eq_getElem_cons hn] at hsplit
  refine ⟨(words.take n).flatMap ofWord32, (words.drop (n + 1)).flatMap ofWord32 ++ rest, ?_, ?_⟩
  · conv_lhs => rw [← hsplit, List.flatMap_append, List.flatMap_cons]
    simp only [List.append_assoc]
  · rw [length_flatMap_ofWord32, List.length_take, Nat.min_eq_left (Nat.le_of_lt hn)]

/-- But for the first `n` bytes, one string is the beginning of the other. -/
structure IsCut (n : Nat) (cut full : Bytes) : Prop where
  length_le : cut.length ≤ full.length
  drop_isPrefix : cut.drop n <+: full.drop n

namespace IsCut

variable {cut full s : Bytes}

theorem drop (h : IsCut n cut full) (hoff : n ≤ off.toNat) :
    cut.drop off.toNat <+: full.drop off.toNat := by
  have hdrop := h.drop_isPrefix.drop (off.toNat - n)
  rwa [List.drop_drop, List.drop_drop, Nat.add_sub_cancel' hoff] at hdrop

theorem slice? (h : IsCut n cut full) (hoff : n ≤ off.toNat) (hs : cut.slice? off length = some s) :
    full.slice? off length = some s := by
  obtain ⟨hword, hle, rfl⟩ := slice?_eq_some_iff.1 hs
  obtain ⟨more, hmore⟩ := h.drop hoff
  refine slice?_eq_some_iff.2 ⟨hword, Nat.le_trans hle h.length_le, ?_⟩
  rw [← hmore, List.take_append_of_le_length]
  rw [List.length_drop]
  omega

theorem word32? {w : UInt32} (h : IsCut n cut full) (hoff : n ≤ off.toNat)
    (hw : cut.word32? off = some w) : full.word32? off = some w := by
  obtain ⟨s, hs, rfl⟩ := Option.map_eq_some_iff.1 hw
  rw [Bytes.word32?, h.slice? hoff hs, Option.map_some]

end IsCut

theorem exists_word32? (hb : b.length < 2 ^ 63) (hoff : off.toNat + 4 ≤ b.length) :
    ∃ w, b.word32? off = some w := by
  have hsize : UInt64.size = 2 ^ 64 := rfl
  have hfour : (4 : UInt64).toNat = 4 := rfl
  have hslice : b.slice? off 4 = some ((b.drop off.toNat).take (4 : UInt64).toNat) :=
    slice?_eq_some_iff.2 ⟨by omega, by omega, rfl⟩
  exact ⟨_, by rw [word32?, hslice, Option.map_some]⟩

end Bytes

/-- No blob comes near half of the offsets, which is more than any buffer takes. -/
theorem Bytes.toNat_ofNat_length {s : Bytes} (h : s.length < 2 ^ 63) :
    (UInt64.ofNat s.length).toNat = s.length :=
  UInt64.toNat_ofNat_of_lt' (Nat.lt_trans h (by decide))

theorem Blob.length_lt_half (b : Blob) : b.bytes.length < 2 ^ 63 :=
  Nat.lt_trans b.length_lt (by decide)

/-- Padding from an offset up to the next multiple of `align`. -/
structure Fills (off align : Nat) (padding : Bytes) : Prop where
  lt : padding.length < align
  mod_eq : (off + padding.length) % align = 0

theorem Fills.toNat_alignUp {padding : Bytes} {off : UInt64} {n k : Nat} (align : UInt64)
    (h : Fills n (2 ^ k) padding) (halign : align.toNat = 2 ^ k) (hoff : off.toNat = n)
    (hn : n + 2 ^ k ≤ UInt64.size) : (Word.alignUp off align).toNat = n + padding.length := by
  rw [Word.toNat_alignUp halign ⟨k, rfl⟩ (hoff ▸ hn), hoff]
  obtain ⟨q, hq⟩ := Nat.dvd_of_mod_eq_zero h.mod_eq
  have hlt := h.lt
  have hpos := Nat.two_pow_pos k
  have hsum : n + (2 ^ k - 1) = 2 ^ k - 1 - padding.length + 2 ^ k * q := by omega
  rw [hsum, Nat.add_mul_div_left _ _ hpos, Nat.div_eq_of_lt (by omega), hq, Nat.zero_add,
    Nat.mul_comm]

namespace Token

open Bytes

/-- The bytes of a token that starts at an offset in the blob. -/
inductive Encodes (legacy : Bool) (off : Nat) : Token → Bytes → Prop
  | beginNode {name padding : Bytes} : 0 ∉ name → (legacy = false → name.length ≤ 255) →
      Fills (off + 4 + (name.length + 1)) 4 padding →
      Encodes legacy off (.beginNode name) (ofWord32 beginNodeTag ++ (name ++ [0] ++ padding))
  | endNode : Encodes legacy off .endNode (ofWord32 endNodeTag)
  | property {length nameOffset : UInt32} {gap value padding : Bytes} :
      length.toNat = value.length →
      Fills (off + 12) (if legacy ∧ 8 ≤ value.length then 8 else 1) gap →
      Fills (off + 12 + gap.length + value.length) 4 padding →
      Encodes legacy off (.property nameOffset value)
        (ofWord32 propertyTag ++
          (ofWord32 length ++ (ofWord32 nameOffset ++ (gap ++ (value ++ padding)))))
  | nop : Encodes legacy off .nop (ofWord32 nopTag)

inductive Written (legacy : Bool) : Nat → List Token → Bytes → Prop
  | nil {off : Nat} : Written legacy off [] []
  | cons {off : Nat} {t : Token} {chunk bytes : Bytes} {rest : List Token} :
      Encodes legacy off t chunk → Written legacy (off + chunk.length) rest bytes →
      Written legacy off (t :: rest) (chunk ++ bytes)

variable {bytes chunk : Bytes} {legacy : Bool} {t : Token} {off : UInt64} {n : Nat}

theorem readName_of_holds {name padding : Bytes} (hbytes : bytes.length < 2 ^ 63)
    (hname : 0 ∉ name) (hmodern : legacy = false → name.length ≤ 255)
    (hpadding : Fills (n + (name.length + 1)) 4 padding)
    (h : bytes.Holds n (name ++ [0] ++ padding)) (hoff : off.toNat = n) :
    ∃ stop, readName bytes legacy off = some (name, stop) ∧
      stop.toNat = n + (name.length + 1) + padding.length := by
  have hle := h.left.add_length_le
  rw [List.length_append, List.length_singleton] at hle
  have hsize : UInt64.size = 2 ^ 64 := rfl
  have hlength : (UInt64.ofNat name.length).toNat = name.length :=
    toNat_ofNat_length (Nat.lt_of_le_of_lt (by omega) hbytes)
  have hend : (off + (UInt64.ofNat name.length + 1)).toNat = n + (name.length + 1) :=
    Word.toNat_add hoff (Word.toNat_add hlength rfl (by omega)) (by omega)
  refine ⟨_, ?_, Fills.toNat_alignUp (k := 2) 4 hpadding rfl hend (by omega)⟩
  unfold readName
  cases legacy with
  | true => rw [if_pos rfl, h.left.string? hname hoff, Option.map_some]
  | false =>
    have hlimit : name.length < maxNameLength := Nat.lt_succ_of_le (hmodern rfl)
    rw [if_neg nofun, h.left.stringWithin? hname hoff hlimit, Option.map_some]

theorem toNat_valueStart {length : UInt32} {gap value : Bytes}
    (hlength : length.toNat = value.length)
    (hgap : Fills (n + 8) (if legacy ∧ 8 ≤ value.length then 8 else 1) gap) (hn : n % 4 = 0)
    (hoff : off.toNat = n + 8) (hsmall : n < 2 ^ 63) :
    (valueStart legacy length off).toNat = n + 8 + gap.length := by
  have hsize : UInt64.size = 2 ^ 64 := rfl
  have hle : 8 ≤ length ↔ 8 ≤ value.length := by
    rw [UInt32.le_iff_toNat_le, hlength]
    rfl
  unfold valueStart
  by_cases hlong : legacy ∧ 8 ≤ value.length
  · rw [if_pos hlong] at hgap
    rw [if_pos hlong.1, if_pos (hle.2 hlong.2)]
    exact Fills.toNat_alignUp (k := 3) 8 hgap rfl hoff (by omega)
  · rw [if_neg hlong] at hgap
    have hnil : gap.length = 0 := Nat.lt_one_iff.1 hgap.lt
    cases legacy with
    | true =>
      have hshort : ¬ 8 ≤ length := fun h => hlong ⟨rfl, hle.1 h⟩
      have hfills : Fills (n + 8) 4 [] := ⟨Nat.succ_pos 3, by simp; omega⟩
      rw [if_pos rfl, if_neg hshort, hnil]
      exact Fills.toNat_alignUp (k := 2) 4 hfills rfl hoff (by omega)
    | false => rw [if_neg nofun, hoff, hnil, Nat.add_zero]

theorem readProperty_of_holds {length nameOffset : UInt32} {gap value padding : Bytes}
    (hbytes : bytes.length < 2 ^ 63) (hlength : length.toNat = value.length)
    (hgap : Fills (n + 8) (if legacy ∧ 8 ≤ value.length then 8 else 1) gap)
    (hpadding : Fills (n + 8 + gap.length + value.length) 4 padding) (hn : n % 4 = 0)
    (h : bytes.Holds n (ofWord32 length ++ (ofWord32 nameOffset ++ (gap ++ (value ++ padding)))))
    (hoff : off.toNat = n) :
    ∃ stop, readProperty bytes legacy off = (some (nameOffset, value), stop) ∧
      stop.toNat = n + 8 + gap.length + value.length + padding.length := by
  have hle := h.add_length_le
  simp only [List.length_append, length_ofWord32] at hle
  have hsize : UInt64.size = 2 ^ 64 := rfl
  have hfour : (off + 4).toNat = n + 4 := Word.toNat_add hoff rfl (by omega)
  have height : (off + 8).toNat = n + 8 := Word.toNat_add hoff rfl (by omega)
  have hstart := toNat_valueStart hlength hgap hn height (by omega)
  have hvalue : bytes.slice? (valueStart legacy length (off + 8)) length.toUInt64 = some value := by
    apply h.right.right.right.left.slice? hbytes
    · rw [hstart]
      simp
    · rw [UInt32.toNat_toUInt64, hlength]
  have hend : (valueStart legacy length (off + 8) + UInt64.ofNat value.length).toNat =
      n + 8 + gap.length + value.length :=
    Word.toNat_add hstart (toNat_ofNat_length (by omega)) (by omega)
  refine ⟨_, ?_, Fills.toNat_alignUp (k := 2) 4 hpadding rfl hend (by omega)⟩
  unfold readProperty
  rw [h.left.word32? hbytes hoff, h.right.left.word32? hbytes hfour]
  simp only [hvalue]

/-- A token is read where it stands, and the next one is read behind it. -/
theorem Encodes.read (h : Encodes legacy n t chunk) (hbytes : bytes.length < 2 ^ 63)
    (hn : n % 4 = 0) (hholds : bytes.Holds n chunk) (hoff : off.toNat = n) :
    ∃ stop, read bytes legacy off = (.ok (some t), stop) ∧ stop.toNat = n + chunk.length ∧
      (n + chunk.length) % 4 = 0 := by
  have hle := hholds.add_length_le
  have hfour : (off + 4).toNat = n + 4 := Word.toNat_add hoff rfl (by omega)
  cases h with
  | @beginNode name padding hname hmodern hpadding =>
    obtain ⟨stop, hread, hstop⟩ :=
      readName_of_holds hbytes hname hmodern hpadding hholds.right hfour
    have hmod := hpadding.mod_eq
    refine ⟨stop, ?_, ?_, ?_⟩
    · rw [Token.read, hholds.left.word32? hbytes hoff]
      simp [hread]
    · simp
      omega
    · simp
      omega
  | endNode =>
    refine ⟨off + 4, ?_, hfour, ?_⟩
    · rw [Token.read, hholds.word32? hbytes hoff]
      rfl
    · simp
      omega
  | nop =>
    refine ⟨off + 4, ?_, hfour, ?_⟩
    · rw [Token.read, hholds.word32? hbytes hoff]
      rfl
    · simp
      omega
  | @property length nameOffset gap value padding hlength hgap hpadding =>
    obtain ⟨stop, hread, hstop⟩ := readProperty_of_holds hbytes hlength hgap hpadding
      (by omega) hholds.right hfour
    have hmod := hpadding.mod_eq
    refine ⟨stop, ?_, ?_, ?_⟩
    · rw [Token.read, hholds.left.word32? hbytes hoff]
      simp [hread, beginNodeTag, endNodeTag, propertyTag]
    · simp
      omega
    · simp
      omega

namespace Reader

theorem stream_of_next {r : Reader} (h : r.next.1 = .ok (some t)) :
    r.stream = ⟨t :: r.next.2.stream.tokens, r.next.2.stream.outcome⟩ := by
  rw [stream]
  split
  · rename_i hnext
    cases hnext.symm.trans h
    rfl
  · rename_i hnext
    cases hnext.symm.trans h
  · rename_i hnext
    cases hnext.symm.trans h

theorem stream_of_next_none {r : Reader} (h : r.next.1 = .ok none) : r.stream = ⟨[], .ok ()⟩ := by
  rw [stream]
  split
  · rename_i hnext
    cases hnext.symm.trans h
  · rfl
  · rename_i hnext
    cases hnext.symm.trans h

theorem stream_of_next_error {r : Reader} {e : Error} (h : r.next.1 = .error e) :
    r.stream = ⟨[], .error e⟩ := by
  rw [stream]
  split
  · rename_i hnext
    cases hnext.symm.trans h
  · rename_i hnext
    cases hnext.symm.trans h
  · rename_i hnext
    cases hnext.symm.trans h
    rfl

end Reader

/-- Tokens that are written one after another, with an end token behind them, are read in that
order. -/
theorem Written.stream {tokens : List Token} (h : Written legacy n tokens chunk) {r : Reader}
    (hlegacy : r.blob.isLegacy = legacy) (hn : n % 4 = 0)
    (hholds : r.blob.bytes.Holds n (chunk ++ ofWord32 endTag)) (hoff : r.offset.toNat = n) :
    r.stream = ⟨tokens, .ok ()⟩ := by
  induction h generalizing r with
  | nil =>
    apply Reader.stream_of_next_none
    unfold Reader.next Token.read
    rw [Holds.word32? hholds r.blob.length_lt_half hoff]
    rfl
  | @cons off t _ _ _ ht hrest ih =>
    rw [List.append_assoc] at hholds
    obtain ⟨stop, hread, hstop, hmod⟩ := ht.read r.blob.length_lt_half hn hholds.left hoff
    have hnext : r.next = (.ok (some t), ⟨r.blob, stop⟩) := by
      unfold Reader.next
      rw [hlegacy, hread]
    have htail := ih (r := ⟨r.blob, stop⟩) hlegacy hmod hholds.right hstop
    rw [Reader.stream_of_next (congrArg Prod.fst hnext), hnext, htail]

end Token
end Devicetree
