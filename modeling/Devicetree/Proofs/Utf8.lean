import Devicetree.Error
import Mathlib.Algebra.Group.Nat.Defs

/-!
# Decoding and encoding

Decoding undoes encoding: a byte string has a text exactly if it is the encoding of one. Each
character is spelled in one way, by one to four bytes, and a decoder reads one spelling after
another.
-/

namespace Devicetree
namespace Utf8

variable {bytes rest : Bytes} {c : Char} {chars : List Char} {v start : Nat}

/-- The numbers of the first bytes that promise a character of some form. -/
def Lead.Admits (n : Nat) : Lead → Prop
  | .one => n < 0x80
  | .two => 0xc2 ≤ n ∧ n < 0xe0
  | .three low high =>
    n = 0xe0 ∧ low = 0xa0 ∧ high = 0xbf ∨ n = 0xed ∧ low = 0x80 ∧ high = 0x9f ∨
      (0xe0 < n ∧ n < 0xf0 ∧ n ≠ 0xed) ∧ low = 0x80 ∧ high = 0xbf
  | .four low high =>
    n = 0xf0 ∧ low = 0x90 ∧ high = 0xbf ∨ n = 0xf4 ∧ low = 0x80 ∧ high = 0x8f ∨
      (0xf0 < n ∧ n < 0xf4) ∧ low = 0x80 ∧ high = 0xbf
  | .none => 0x80 ≤ n ∧ n < 0xc2 ∨ 0xf4 < n

instance (n : Nat) : (l : Lead) → Decidable (l.Admits n)
  | .one => inferInstanceAs (Decidable (_ < _))
  | .two => inferInstanceAs (Decidable (_ ∧ _))
  | .three _ _ => inferInstanceAs (Decidable (_ ∨ _))
  | .four _ _ => inferInstanceAs (Decidable (_ ∨ _))
  | .none => inferInstanceAs (Decidable (_ ∨ _))

theorem Lead.admits_ofByte (a : UInt8) : (Lead.ofByte a).Admits a.toNat := by
  have hall : ∀ n : Fin 256, (Lead.ofByte (UInt8.ofNat n)).Admits n := by decide +kernel
  have ha := hall ⟨a.toNat, a.toNat_lt⟩
  rwa [UInt8.ofNat_toNat] at ha

theorem Lead.ofByte_eq_iff {a : UInt8} {l : Lead} : Lead.ofByte a = l ↔ l.Admits a.toNat := by
  constructor
  · rintro rfl
    exact admits_ofByte a
  · intro h
    have ha := admits_ofByte a
    generalize Lead.ofByte a = l' at ha
    cases l' <;> cases l <;>
      simp only [Admits, reduceCtorEq, Lead.three.injEq, Lead.four.injEq] at ha h ⊢
    all_goals grind

theorem isContinuation_iff {b : UInt8} :
    isContinuation b = true ↔ 0x80 ≤ b.toNat ∧ b.toNat < 0xc0 := by
  simp only [isContinuation, Bool.and_eq_true, decide_eq_true_eq, UInt8.le_iff_toNat_le,
    UInt8.reduceToNat]
  omega

/-- The bytes are those that a decoder reads as the character. -/
inductive Spells : Bytes → Char → Prop
  | one {a : UInt8} : Lead.ofByte a = .one → Spells [a] (Char.ofNat a.toNat)
  | two {a b : UInt8} : Lead.ofByte a = .two → isContinuation b = true →
    Spells [a, b] (Char.ofNat (a.toNat % 32 * 64 + payload b))
  | three {a b c low high : UInt8} : Lead.ofByte a = .three low high → low ≤ b ∧ b ≤ high →
    isContinuation c = true →
    Spells [a, b, c] (Char.ofNat ((a.toNat % 16 * 64 + payload b) * 64 + payload c))
  | four {a b c d low high : UInt8} : Lead.ofByte a = .four low high → low ≤ b ∧ b ≤ high →
    isContinuation c = true → isContinuation d = true →
    Spells [a, b, c, d]
      (Char.ofNat (((a.toNat % 8 * 64 + payload b) * 64 + payload c) * 64 + payload d))

theorem toNat_ofNat (h : v.isValidChar) : (Char.ofNat v).val.toNat = v := by
  unfold Char.ofNat
  rw [dif_pos h]
  rfl

theorem ofNat_eq {a : UInt8} (h : v = a.toNat) : UInt8.ofNat v = a := by
  rw [h, UInt8.ofNat_toNat]

theorem payload_lt (b : UInt8) : payload b < 64 := Nat.mod_lt _ (by decide)

theorem ofNat_payload {b : UInt8} (h : isContinuation b = true) :
    UInt8.ofNat (payload b + 128) = b := by
  have hb := isContinuation_iff.1 h
  unfold payload
  exact ofNat_eq (by omega)

theorem digits_three {x y z : Nat} (hx : x < 16) (hy : y < 64) (hz : z < 64) :
    ((x * 64 + y) * 64 + z) / 4096 % 16 = x ∧ ((x * 64 + y) * 64 + z) / 64 % 64 = y ∧
      ((x * 64 + y) * 64 + z) % 64 = z := by
  omega

theorem digits_four {x y z w : Nat} (hx : x < 8) (hy : y < 64) (hz : z < 64) (hw : w < 64) :
    (((x * 64 + y) * 64 + z) * 64 + w) / 262144 % 8 = x ∧
      (((x * 64 + y) * 64 + z) * 64 + w) / 4096 % 64 = y ∧
      (((x * 64 + y) * 64 + z) * 64 + w) / 64 % 64 = z ∧
      (((x * 64 + y) * 64 + z) * 64 + w) % 64 = w := by
  omega

/-- The second byte of three is a continuation byte that makes the character neither overlong nor
a surrogate. -/
theorem exists_three_iff {a b : UInt8} :
    (∃ low high, Lead.ofByte a = .three low high ∧ low ≤ b ∧ b ≤ high) ↔
      isContinuation b = true ∧ a.toNat = a.toNat % 16 + 224 ∧
        0x20 ≤ a.toNat % 16 * 64 + payload b ∧
        (a.toNat % 16 * 64 + payload b < 0x360 ∨ 0x37f < a.toNat % 16 * 64 + payload b) := by
  simp only [Lead.ofByte_eq_iff, Lead.Admits, isContinuation_iff, UInt8.le_iff_toNat_le]
  unfold payload
  constructor
  · rintro ⟨low, high, ha, hb⟩
    simp only [← UInt8.toNat_inj, UInt8.reduceToNat] at ha
    omega
  · rintro ⟨hb, ha⟩
    by_cases hlow : a.toNat = 0xe0
    · exact ⟨0xa0, 0xbf, .inl ⟨hlow, rfl, rfl⟩, by simp only [UInt8.reduceToNat]; omega⟩
    · by_cases hhigh : a.toNat = 0xed
      · exact ⟨0x80, 0x9f, .inr (.inl ⟨hhigh, rfl, rfl⟩), by simp only [UInt8.reduceToNat]; omega⟩
      · refine ⟨0x80, 0xbf, .inr (.inr ⟨by omega, rfl, rfl⟩), ?_⟩
        simp only [UInt8.reduceToNat]
        omega

/-- The second byte of four is a continuation byte that makes the character neither overlong nor
too large. -/
theorem exists_four_iff {a b : UInt8} :
    (∃ low high, Lead.ofByte a = .four low high ∧ low ≤ b ∧ b ≤ high) ↔
      isContinuation b = true ∧ a.toNat = a.toNat % 8 + 240 ∧
        0x10 ≤ a.toNat % 8 * 64 + payload b ∧ a.toNat % 8 * 64 + payload b < 0x110 := by
  simp only [Lead.ofByte_eq_iff, Lead.Admits, isContinuation_iff, UInt8.le_iff_toNat_le]
  unfold payload
  constructor
  · rintro ⟨low, high, ha, hb⟩
    simp only [← UInt8.toNat_inj, UInt8.reduceToNat] at ha
    omega
  · rintro ⟨hb, ha⟩
    by_cases hlow : a.toNat = 0xf0
    · exact ⟨0x90, 0xbf, .inl ⟨hlow, rfl, rfl⟩, by simp only [UInt8.reduceToNat]; omega⟩
    · by_cases hhigh : a.toNat = 0xf4
      · exact ⟨0x80, 0x8f, .inr (.inl ⟨hhigh, rfl, rfl⟩), by simp only [UInt8.reduceToNat]; omega⟩
      · refine ⟨0x80, 0xbf, .inr (.inr ⟨by omega, rfl, rfl⟩), ?_⟩
        simp only [UInt8.reduceToNat]
        omega

theorem Spells.encode (h : Spells bytes c) : String.utf8EncodeChar c = bytes := by
  unfold String.utf8EncodeChar
  dsimp only
  cases h with
  | @one a ha =>
    have ha : a.toNat < 0x80 := Lead.ofByte_eq_iff.1 ha
    rw [toNat_ofNat (.inl (by omega)), if_pos (by omega), UInt8.ofNat_toNat]
  | @two a b ha hb =>
    have ha : 0xc2 ≤ a.toNat ∧ a.toNat < 0xe0 := Lead.ofByte_eq_iff.1 ha
    have hlow := payload_lt b
    rw [toNat_ofNat (.inl (by omega)), if_neg (by omega), if_pos (by omega)]
    rw [show (a.toNat % 32 * 64 + payload b) % 64 = payload b by omega, ofNat_payload hb]
    rw [ofNat_eq (a := a) (by omega)]
  | @three a b c low high ha hb hc =>
    obtain ⟨hb, ha, hle, hsurrogate⟩ := exists_three_iff.1 ⟨low, high, ha, hb⟩
    have hmid := payload_lt b
    have hlow := payload_lt c
    obtain ⟨h₁, h₂, h₃⟩ := digits_three (Nat.mod_lt a.toNat (by decide)) hmid hlow
    rw [toNat_ofNat (by unfold Nat.isValidChar; omega), if_neg (by omega), if_neg (by omega),
      if_pos (by omega), h₁, h₂, h₃, ofNat_payload hb, ofNat_payload hc, ofNat_eq ha.symm]
  | @four a b c d low high ha hb hc hd =>
    obtain ⟨hb, ha, hle, hlt⟩ := exists_four_iff.1 ⟨low, high, ha, hb⟩
    have hmid := payload_lt c
    have hlow := payload_lt d
    obtain ⟨h₁, h₂, h₃, h₄⟩ :=
      digits_four (Nat.mod_lt a.toNat (by decide)) (payload_lt b) hmid hlow
    rw [toNat_ofNat (by unfold Nat.isValidChar; omega), if_neg (by omega), if_neg (by omega),
      if_neg (by omega), h₁, h₂, h₃, h₄, ofNat_payload hb, ofNat_payload hc, ofNat_payload hd,
      ofNat_eq ha.symm]

theorem exists_toNat_eq (h : v < 256) : ∃ a : UInt8, a.toNat = v :=
  ⟨UInt8.ofNat v, by rw [UInt8.toNat_ofNat']; omega⟩

theorem exists_payload_eq (h : v < 64) :
    ∃ b : UInt8, isContinuation b = true ∧ payload b = v ∧ b.toNat = v + 0x80 := by
  obtain ⟨b, hb⟩ := exists_toNat_eq (v := v + 0x80) (by omega)
  exact ⟨b, isContinuation_iff.2 (by omega), by unfold payload; omega, hb⟩

theorem exists_spells (c : Char) : ∃ bytes, Spells bytes c := by
  have hvalid : c.toNat < 0xd800 ∨ 0xdfff < c.toNat ∧ c.toNat < 0x110000 := c.valid
  have hspelled : ∀ {bytes v}, Spells bytes (Char.ofNat v) → v = c.toNat →
      ∃ bytes, Spells bytes c := by
    rintro bytes v h rfl
    exact ⟨bytes, c.ofNat_toNat ▸ h⟩
  by_cases hone : c.toNat < 0x80
  · obtain ⟨a, ha⟩ := exists_toNat_eq (v := c.toNat) (by omega)
    exact hspelled (.one (Lead.ofByte_eq_iff.2 (ha ▸ hone))) ha
  obtain ⟨z, hz, hzp, -⟩ := exists_payload_eq (v := c.toNat % 64) (by omega)
  by_cases htwo : c.toNat < 0x800
  · obtain ⟨a, ha⟩ := exists_toNat_eq (v := c.toNat / 64 + 0xc0) (by omega)
    have hlead : Lead.ofByte a = .two := Lead.ofByte_eq_iff.2 ⟨by omega, by omega⟩
    exact hspelled (.two hlead hz) (by omega)
  obtain ⟨y, hy, hyp, -⟩ := exists_payload_eq (v := c.toNat / 64 % 64) (by omega)
  by_cases hthree : c.toNat < 0x10000
  · obtain ⟨a, ha⟩ := exists_toNat_eq (v := c.toNat / 4096 + 0xe0) (by omega)
    obtain ⟨low, high, hlead, hbounds⟩ := exists_three_iff.2
      (⟨hy, by omega, by omega, by omega⟩ : _ ∧ a.toNat = a.toNat % 16 + 224 ∧ _)
    exact hspelled (.three hlead hbounds hz) (by omega)
  · obtain ⟨x, hx, hxp, -⟩ := exists_payload_eq (v := c.toNat / 4096 % 64) (by omega)
    obtain ⟨a, ha⟩ := exists_toNat_eq (v := c.toNat / 262144 + 0xf0) (by omega)
    obtain ⟨low, high, hlead, hbounds⟩ := exists_four_iff.2
      (⟨hx, by omega, by omega, by omega⟩ : _ ∧ a.toNat = a.toNat % 8 + 240 ∧ _)
    exact hspelled (.four hlead hbounds hy hz) (by omega)

theorem spells_utf8EncodeChar (c : Char) : Spells (String.utf8EncodeChar c) c := by
  obtain ⟨bytes, h⟩ := exists_spells c
  rwa [h.encode]

/-- A byte that spells a character alone is part of no other spelling. -/
theorem Spells.eq_of_mem {m : UInt8} {mark : Char} (h : Spells bytes c) (hmark : Spells [m] mark)
    (hm : m ∈ bytes) : bytes = [m] ∧ c = mark := by
  cases hmark with
  | one hone =>
    have hlow : m.toNat < 0x80 := Lead.ofByte_eq_iff.1 hone
    have hnot : ¬ isContinuation m = true := by
      rw [isContinuation_iff]
      omega
    cases h with
    | one ha =>
      obtain rfl := List.mem_singleton.1 hm
      exact ⟨rfl, rfl⟩
    | two ha hb =>
      simp only [List.mem_cons, List.not_mem_nil, or_false] at hm
      rcases hm with rfl | rfl
      · simp [hone] at ha
      · exact absurd hb hnot
    | three ha hb hc =>
      simp only [List.mem_cons, List.not_mem_nil, or_false] at hm
      rcases hm with rfl | rfl | rfl
      · simp [hone] at ha
      · exact absurd (exists_three_iff.1 ⟨_, _, ha, hb⟩).1 hnot
      · exact absurd hc hnot
    | four ha hb hc hd =>
      simp only [List.mem_cons, List.not_mem_nil, or_false] at hm
      rcases hm with rfl | rfl | rfl | rfl
      · simp [hone] at ha
      · exact absurd (exists_four_iff.1 ⟨_, _, ha, hb⟩).1 hnot
      · exact absurd hc hnot
      · exact absurd hd hnot

theorem Spells.decodeFrom (h : Spells bytes c) (start : Nat) (rest : Bytes) :
    decodeFrom start (bytes ++ rest) =
      (decodeFrom (start + bytes.length) rest).map (c :: ·) := by
  rw [Utf8.decodeFrom.eq_def]
  cases h with
  | one ha => simp [ha]
  | two ha hb => simp [ha, hb]
  | three ha hb hc => simp [ha, hb, hc]
  | four ha hb hc hd => simp [ha, hb, hc, hd]

theorem Spells.append_eq {answer : Except Fault (List Char)} (h : Spells bytes c)
    (hmap : answer.map (c :: ·) = .ok chars)
    (hrest : ∀ {more}, answer = .ok more → rest = more.flatMap String.utf8EncodeChar) :
    bytes ++ rest = chars.flatMap String.utf8EncodeChar := by
  cases answer with
  | error e => contradiction
  | ok more =>
    cases hmap
    rw [List.flatMap_cons, h.encode, ← hrest rfl]

/-- Bytes are decoded to the characters that they encode. -/
theorem decodeFrom_eq_ok_iff :
    decodeFrom start bytes = .ok chars ↔ bytes = chars.flatMap String.utf8EncodeChar := by
  constructor
  · intro h
    fun_induction decodeFrom start bytes generalizing chars
    case case1 =>
      cases h
      rfl
    case case3 ha ih => exact (Spells.one ha).append_eq h ih
    case case5 ha _ _ hb ih => exact (Spells.two ha hb).append_eq h ih
    case case9 ha _ hb _ _ hc ih => exact (Spells.three ha hb hc).append_eq h ih
    case case15 ha _ hb _ hc _ _ hd ih => exact (Spells.four ha hb hc hd).append_eq h ih
    all_goals contradiction
  · rintro rfl
    induction chars generalizing start with
    | nil => rfl
    | cons c more ih =>
      rw [List.flatMap_cons, (spells_utf8EncodeChar c).decodeFrom, ih]
      rfl

end Utf8

namespace Bytes

variable {b : Bytes} {s s' : String}

/-- A byte string has a text exactly if it is the encoding of one. -/
theorem text_eq_ok_iff : b.text = .ok s ↔ b = ofString s := by
  have hdecode : Utf8.decode b = .ok s ↔ Utf8.decodeFrom 0 b = .ok s.toList := by
    unfold Utf8.decode
    cases Utf8.decodeFrom 0 b with
    | error e => simp [Except.map]
    | ok chars => simp [Except.map, String.ext_iff]
  have htext : b.text = .ok s ↔ Utf8.decode b = .ok s := by
    unfold text
    cases Utf8.decode b <;> simp
  rw [htext, hdecode, Utf8.decodeFrom_eq_ok_iff]
  rfl

theorem ofString_append (s s' : String) : ofString (s ++ s') = ofString s ++ ofString s' := by
  unfold ofString
  rw [String.toList_append, List.flatMap_append]

theorem text_ofString (s : String) : (ofString s).text = .ok s := text_eq_ok_iff.2 rfl

theorem mem_ofString_iff {m : UInt8} {mark : Char} (hmark : Utf8.Spells [m] mark) :
    m ∈ ofString s ↔ mark ∈ s.toList := by
  rw [ofString, List.mem_flatMap]
  constructor
  · rintro ⟨c, hc, hm⟩
    exact ((Utf8.spells_utf8EncodeChar c).eq_of_mem hmark hm).2 ▸ hc
  · exact fun hc => ⟨_, hc, hmark.encode ▸ List.mem_singleton_self m⟩

theorem ofString_inj : ofString s = ofString s' ↔ s = s' := by
  constructor
  · intro h
    exact Except.ok.inj ((text_ofString s).symm.trans (h ▸ text_ofString s'))
  · rintro rfl
    rfl

end Bytes
end Devicetree
