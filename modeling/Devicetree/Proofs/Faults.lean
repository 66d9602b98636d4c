import Devicetree.Proofs.Utf8
import Mathlib.Data.List.Infix

/-!
# Faults of texts

Why bytes are no text can be said without decoding them. The fault stands behind the longest text
that the bytes begin with. There they end inside a character, or some byte does not go on with one:
then the faulty sequence is as long as the bytes before that one can begin a character, and one byte
at least. So a text in front of bytes moves their fault and changes nothing else about it.
-/

namespace Devicetree
namespace Utf8

/-- The bytes are the first ones of some character, or all of them. -/
def Begins (b : Bytes) : Prop := ∃ c, b <+: String.utf8EncodeChar c

namespace Fault

def shift (n : Nat) (f : Fault) : Fault := { f with validUpTo := n + f.validUpTo }

/-- The fault is why the bytes are no text. -/
structure IsOf (f : Fault) (b : Bytes) : Prop where
  lt_length : f.validUpTo < b.length
  /-- The bytes before the fault are a text. -/
  text : ∃ s, b.take f.validUpTo = Bytes.ofString s
  /-- The bytes begin with no longer text. -/
  longest : ∀ s, Bytes.ofString s <+: b → (Bytes.ofString s).length ≤ f.validUpTo
  /-- They end inside a character exactly if the faulty sequence has no length. -/
  incomplete : f.length = none ↔ Begins (b.drop f.validUpTo)
  /-- A length is that of the longest sequence that begins a character, or one if none does. -/
  sequence : ∀ k, f.length = some k → 0 < k ∧
    (k = 1 ∨ Begins ((b.drop f.validUpTo).take k)) ∧ ¬ Begins ((b.drop f.validUpTo).take (k + 1))

end Fault

variable {b bytes rest p q : Bytes} {a x : UInt8} {c c' : Char} {chars chars' : List Char}
  {s : String} {start : Nat} {e f f' : Fault}

theorem Begins.of_isPrefix (h : Begins b) (hp : p <+: b) : Begins p := by
  obtain ⟨c, hc⟩ := h
  exact ⟨c, hp.trans hc⟩

namespace Fault

theorem IsOf.validUpTo_le (h : f.IsOf b) (h' : f'.IsOf b) : f.validUpTo ≤ f'.validUpTo := by
  obtain ⟨s, hs⟩ := h.text
  have hlength := h'.longest s (hs ▸ List.take_prefix _ _)
  rwa [← hs, List.length_take, Nat.min_eq_left (Nat.le_of_lt h.lt_length)] at hlength

theorem IsOf.length_le {k k' : Nat} (h : f.IsOf b) (h' : f'.IsOf b)
    (hvalid : f.validUpTo = f'.validUpTo) (hk : f.length = some k) (hk' : f'.length = some k') :
    k ≤ k' := by
  obtain ⟨-, hbegins, -⟩ := h.sequence k hk
  obtain ⟨hpos, -, hnot⟩ := h'.sequence k' hk'
  rw [← hvalid] at hnot
  rcases hbegins with rfl | hbegins
  · exact hpos
  · by_contra hlt
    exact hnot (hbegins.of_isPrefix (List.take_prefix_take_left (by omega)))

/-- Bytes have one fault. -/
theorem IsOf.eq (h : f.IsOf b) (h' : f'.IsOf b) : f = f' := by
  have hvalid := Nat.le_antisymm (h.validUpTo_le h') (h'.validUpTo_le h)
  have hnone : f.length = none ↔ f'.length = none := by
    rw [h.incomplete, h'.incomplete, hvalid]
  have hlength : f.length = f'.length := by
    cases hk : f.length with
    | none => exact (hnone.1 hk).symm
    | some k =>
      cases hk' : f'.length with
      | none => simp [hnone.2 hk'] at hk
      | some k' =>
        rw [Nat.le_antisymm (h.length_le h' hvalid hk hk') (h'.length_le h hvalid.symm hk' hk)]
  cases f
  cases f'
  cases hvalid
  cases hlength
  rfl

end Fault

/-! ## Texts in front -/

/-- A decoder reads a text and goes on behind it. -/
theorem decodeFrom_append (chars : List Char) (start : Nat) (rest : Bytes) :
    decodeFrom start (chars.flatMap String.utf8EncodeChar ++ rest) =
      (decodeFrom (start + (chars.flatMap String.utf8EncodeChar).length) rest).map
        (chars ++ ·) := by
  induction chars generalizing start with
  | nil =>
    simp only [List.flatMap_nil, List.nil_append, List.length_nil, Nat.add_zero]
    cases decodeFrom start rest <;> rfl
  | cons c more ih =>
    rw [List.flatMap_cons, List.append_assoc, (spells_utf8EncodeChar c).decodeFrom, ih,
      List.length_append, Nat.add_assoc]
    cases decodeFrom _ rest <;> rfl

/-- What follows a text in a text is a text. -/
theorem append_eq_flatMap_iff :
    chars.flatMap String.utf8EncodeChar ++ rest = chars'.flatMap String.utf8EncodeChar ↔
      ∃ more, chars' = chars ++ more ∧ rest = more.flatMap String.utf8EncodeChar := by
  constructor
  · intro h
    have hdecode : decodeFrom 0 (chars.flatMap String.utf8EncodeChar ++ rest) = .ok chars' :=
      decodeFrom_eq_ok_iff.2 h
    rw [decodeFrom_append] at hdecode
    cases hrest : decodeFrom (0 + (chars.flatMap String.utf8EncodeChar).length) rest with
    | error e =>
      rw [hrest] at hdecode
      contradiction
    | ok more =>
      rw [hrest] at hdecode
      exact ⟨more, (Except.ok.inj hdecode).symm, decodeFrom_eq_ok_iff.1 hrest⟩
  · rintro ⟨more, rfl, rfl⟩
    exact List.flatMap_append.symm

/-- No character is the front of another. -/
theorem eq_of_encode_isPrefix (h : String.utf8EncodeChar c <+: String.utf8EncodeChar c') :
    c = c' := by
  obtain ⟨rest, h⟩ := h
  have htexts : [c].flatMap String.utf8EncodeChar ++ rest = [c'].flatMap String.utf8EncodeChar := by
    simpa using h
  obtain ⟨more, hmore, -⟩ := append_eq_flatMap_iff.1 htexts
  exact (List.cons.inj hmore).1.symm

theorem ofString_ofList (chars : List Char) :
    Bytes.ofString (String.ofList chars) = chars.flatMap String.utf8EncodeChar := by
  rw [Bytes.ofString, String.toList_ofList]

theorem Fault.IsOf.append (h : f.IsOf rest) (s : String) :
    (f.shift (Bytes.ofString s).length).IsOf (Bytes.ofString s ++ rest) := by
  have hdrop : (Bytes.ofString s ++ rest).drop ((Bytes.ofString s).length + f.validUpTo) =
      rest.drop f.validUpTo := List.drop_length_add_append ..
  constructor
  case lt_length =>
    rw [List.length_append]
    exact Nat.add_lt_add_left h.lt_length _
  case text =>
    obtain ⟨s', hs'⟩ := h.text
    refine ⟨s ++ s', ?_⟩
    rw [Bytes.ofString_append, ← hs']
    exact List.take_length_add_append ..
  case longest =>
    intro s' hs'
    rcases List.prefix_or_prefix_of_prefix hs' (List.prefix_append _ _) with hle | ⟨more, hmore⟩
    · exact Nat.le_trans hle.length_le (Nat.le_add_right _ _)
    · obtain ⟨chars, -, rfl⟩ := append_eq_flatMap_iff.1 hmore
      rw [← hmore, List.prefix_append_right_inj, ← ofString_ofList] at hs'
      have hlength := h.longest _ hs'
      rw [← hmore, List.length_append, ← ofString_ofList]
      exact Nat.add_le_add_left hlength _
  case incomplete =>
    refine h.incomplete.trans ?_
    rw [← hdrop]
    rfl
  case sequence =>
    intro k hk
    have hsequence := h.sequence k hk
    rw [← hdrop] at hsequence
    exact hsequence

/-! ## Where a character breaks off -/

theorem spells_iff : Spells bytes c ↔ String.utf8EncodeChar c = bytes := by
  constructor
  · exact Spells.encode
  · rintro rfl
    exact spells_utf8EncodeChar c

def Lead.Takes : Lead → Bytes → Prop
  | .one, rest => rest = []
  | .two, rest => ∃ b, rest = [b] ∧ isContinuation b = true
  | .three low high, rest => ∃ b c, rest = [b, c] ∧ (low ≤ b ∧ b ≤ high) ∧ isContinuation c = true
  | .four low high, rest => ∃ b c d, rest = [b, c, d] ∧ (low ≤ b ∧ b ≤ high) ∧
      isContinuation c = true ∧ isContinuation d = true
  | .none, _ => False

theorem exists_spells_cons_iff : (∃ c, Spells (a :: rest) c) ↔ (Lead.ofByte a).Takes rest := by
  constructor
  · rintro ⟨c, h⟩
    cases h with
    | one ha => simp [ha, Lead.Takes]
    | two ha hb => simp [ha, Lead.Takes, hb]
    | three ha hb hc => simp [ha, Lead.Takes, hb, hc]
    | four ha hb hc hd => simp [ha, Lead.Takes, hb, hc, hd]
  · intro h
    cases ha : Lead.ofByte a <;> rw [ha] at h
    case one =>
      obtain rfl : rest = [] := h
      exact ⟨_, .one ha⟩
    case two =>
      obtain ⟨b, rfl, hb⟩ := h
      exact ⟨_, .two ha hb⟩
    case three =>
      obtain ⟨b, c, rfl, hb, hc⟩ := h
      exact ⟨_, .three ha hb hc⟩
    case four =>
      obtain ⟨b, c, d, rfl, hb, hc, hd⟩ := h
      exact ⟨_, .four ha hb hc hd⟩
    case none => exact h.elim

theorem begins_cons_iff : Begins (a :: p) ↔ ∃ q, (Lead.ofByte a).Takes (p ++ q) := by
  simp only [← exists_spells_cons_iff, spells_iff]
  constructor
  · rintro ⟨c, q, h⟩
    exact ⟨q, c, h.symm⟩
  · rintro ⟨q, c, h⟩
    exact ⟨c, q, h.symm⟩

/-- The bytes begin a character and do not end it. -/
def Pending (p : Bytes) : Prop := ∃ q c, q ≠ [] ∧ Spells (p ++ q) c

theorem pending_nil : Pending [] := by
  obtain ⟨bytes, h⟩ := exists_spells default
  refine ⟨bytes, _, ?_, h⟩
  rintro rfl
  cases h

theorem pending_cons (hq : q ≠ []) (h : (Lead.ofByte a).Takes (p ++ q)) : Pending (a :: p) := by
  obtain ⟨c, h⟩ := exists_spells_cons_iff.2 h
  exact ⟨q, c, hq, h⟩

theorem Lead.low_le_high {low high : UInt8}
    (ha : ofByte a = .three low high ∨ ofByte a = .four low high) : low ≤ high := by
  rcases ha with ha | ha
  all_goals
    have hadmits := ofByte_eq_iff.1 ha
    simp only [Admits] at hadmits
    rcases hadmits with ⟨-, rfl, rfl⟩ | ⟨-, rfl, rfl⟩ | ⟨-, rfl, rfl⟩ <;> decide

theorem isContinuation_low : isContinuation 0x80 = true := rfl

section Pending

variable {b c low high : UInt8}

theorem pending_two (ha : Lead.ofByte a = .two) : Pending [a] :=
  pending_cons (q := [0x80]) (by simp) (by simp [ha, Lead.Takes, isContinuation_low])

theorem pending_three (ha : Lead.ofByte a = .three low high) : Pending [a] :=
  pending_cons (q := [low, 0x80]) (by simp)
    (by simp [ha, Lead.Takes, isContinuation_low, Lead.low_le_high (.inl ha)])

theorem pending_three_second (ha : Lead.ofByte a = .three low high) (hb : low ≤ b ∧ b ≤ high) :
    Pending [a, b] :=
  pending_cons (q := [0x80]) (by simp) (by simp [ha, Lead.Takes, isContinuation_low, hb])

theorem pending_four (ha : Lead.ofByte a = .four low high) : Pending [a] :=
  pending_cons (q := [low, 0x80, 0x80]) (by simp)
    (by simp [ha, Lead.Takes, isContinuation_low, Lead.low_le_high (.inr ha)])

theorem pending_four_second (ha : Lead.ofByte a = .four low high) (hb : low ≤ b ∧ b ≤ high) :
    Pending [a, b] :=
  pending_cons (q := [0x80, 0x80]) (by simp) (by simp [ha, Lead.Takes, isContinuation_low, hb])

theorem pending_four_third (ha : Lead.ofByte a = .four low high) (hb : low ≤ b ∧ b ≤ high)
    (hc : isContinuation c = true) : Pending [a, b, c] :=
  pending_cons (q := [0x80]) (by simp) (by simp [ha, Lead.Takes, isContinuation_low, hb, hc])

end Pending

theorem Pending.begins (h : Pending p) : Begins p := by
  obtain ⟨q, c, -, h⟩ := h
  exact ⟨c, q, h.encode.symm⟩

theorem Pending.not_isPrefix (h : Pending p) (c : Char) : ¬ String.utf8EncodeChar c <+: p := by
  obtain ⟨q, c', hq, h⟩ := h
  intro hc
  have hlength := hc.length_le
  obtain rfl : c = c' := eq_of_encode_isPrefix (h.encode ▸ hc.trans (List.prefix_append p q))
  have hpos := List.length_pos_iff.2 hq
  rw [h.encode, List.length_append] at hlength
  omega

theorem ofString_eq_nil_of_isPrefix (h : ∀ c, ¬ String.utf8EncodeChar c <+: b)
    (hs : Bytes.ofString s <+: b) : Bytes.ofString s = [] := by
  unfold Bytes.ofString at hs ⊢
  cases hchars : s.toList with
  | nil => rfl
  | cons c chars =>
    rw [hchars, List.flatMap_cons] at hs
    exact absurd ((List.prefix_append _ _).trans hs) (h c)

theorem Pending.isOf_end (h : Pending p) (hp : p ≠ []) : Fault.IsOf ⟨0, none⟩ p where
  lt_length := List.length_pos_iff.2 hp
  text := ⟨"", rfl⟩
  longest := fun s hs => by simp [ofString_eq_nil_of_isPrefix h.not_isPrefix hs]
  incomplete := iff_of_true rfl h.begins
  sequence := nofun

theorem Pending.isOf_stop (h : Pending p) (hx : ¬ Begins (p ++ [x])) (rest : Bytes) :
    Fault.IsOf ⟨0, some (max 1 p.length)⟩ (p ++ x :: rest) := by
  have hlonger : ∀ {b}, p ++ [x] <+: b → ¬ Begins b := fun hb hbegins => hx (hbegins.of_isPrefix hb)
  have hfront : p ++ [x] <+: p ++ x :: rest := ⟨rest, by simp⟩
  have hnone : ∀ c, ¬ String.utf8EncodeChar c <+: p ++ x :: rest := by
    intro c hc
    rcases List.prefix_or_prefix_of_prefix hc hfront with hle | hle
    · rcases List.prefix_concat_iff.1 hle with heq | hle
      · exact hx ⟨c, heq ▸ List.prefix_refl _⟩
      · exact h.not_isPrefix c hle
    · exact hlonger hle ⟨c, List.prefix_refl _⟩
  constructor
  case lt_length =>
    rw [List.length_append]
    exact Nat.add_pos_right _ (Nat.succ_pos _)
  case text => exact ⟨"", rfl⟩
  case longest => exact fun s hs => by simp [ofString_eq_nil_of_isPrefix hnone hs]
  case incomplete => exact iff_of_false (by simp) (hlonger hfront)
  case sequence =>
    intro k hk
    obtain rfl := Option.some.inj hk
    refine ⟨Nat.lt_of_lt_of_le Nat.one_pos (Nat.le_max_left _ _), ?_, hlonger ?_⟩
    · rcases Nat.le_total p.length 1 with hp | hp
      · exact .inl (Nat.max_eq_left hp)
      · rw [Nat.max_eq_right hp, List.drop_zero, List.take_left]
        exact .inr h.begins
    · have hcut : (p ++ x :: rest).take (p.length + 1) = p ++ [x] := List.take_length_add_append ..
      rw [List.drop_zero, ← hcut]
      exact List.take_prefix_take_left (by omega)

/-! ## Decoding -/

theorem Spells.exists_isOf {answer : Except Fault (List Char)} (h : Spells bytes c)
    (hmap : answer.map (c :: ·) = .error e)
    (hrest : ∀ {e}, answer = .error e →
      ∃ f : Fault, e = f.shift (start + bytes.length) ∧ f.IsOf rest) :
    ∃ f : Fault, e = f.shift start ∧ f.IsOf (bytes ++ rest) := by
  cases answer with
  | ok chars => contradiction
  | error e' =>
    cases hmap
    obtain ⟨f, rfl, hf⟩ := hrest rfl
    have hbytes : Bytes.ofString (String.ofList [c]) = bytes := by
      rw [ofString_ofList, List.flatMap_singleton, h.encode]
    refine ⟨f.shift bytes.length, ?_, hbytes ▸ hf.append (String.ofList [c])⟩
    simp [Fault.shift, Nat.add_assoc]

theorem exists_isOf_of_decodeFrom (h : decodeFrom start b = .error e) :
    ∃ f : Fault, e = f.shift start ∧ f.IsOf b := by
  fun_induction decodeFrom start b generalizing e
  case case1 => contradiction
  case case3 ha ih => exact (Spells.one ha).exists_isOf h ih
  case case5 ha _ _ hb ih => exact (Spells.two ha hb).exists_isOf h ih
  case case9 ha _ hb _ _ hc ih => exact (Spells.three ha hb hc).exists_isOf h ih
  case case15 ha _ hb _ hc _ _ hd ih => exact (Spells.four ha hb hc hd).exists_isOf h ih
  all_goals
    cases h
    refine ⟨⟨0, _⟩, rfl, ?_⟩
  case case2 ha => exact pending_nil.isOf_stop (by simp [begins_cons_iff, ha, Lead.Takes]) _
  case case4 ha => exact (pending_two ha).isOf_end (by simp)
  case case6 ha _ _ hb =>
    exact (pending_two ha).isOf_stop (by simp [begins_cons_iff, ha, Lead.Takes, hb]) _
  case case7 ha => exact (pending_three ha).isOf_end (by simp)
  case case8 ha _ hb => exact (pending_three_second ha hb).isOf_end (by simp)
  case case10 ha _ hb _ _ hc =>
    exact (pending_three_second ha hb).isOf_stop (by simp [begins_cons_iff, ha, Lead.Takes, hc]) _
  case case11 ha _ _ hb =>
    exact (pending_three ha).isOf_stop (by simp [begins_cons_iff, ha, Lead.Takes, hb]) _
  case case12 ha => exact (pending_four ha).isOf_end (by simp)
  case case13 ha _ hb => exact (pending_four_second ha hb).isOf_end (by simp)
  case case14 ha _ hb _ hc => exact (pending_four_third ha hb hc).isOf_end (by simp)
  case case16 ha _ hb _ hc _ _ hd =>
    exact (pending_four_third ha hb hc).isOf_stop
      (by simp [begins_cons_iff, ha, Lead.Takes, hd]) _
  case case17 ha _ hb _ _ hc =>
    exact (pending_four_second ha hb).isOf_stop (by simp [begins_cons_iff, ha, Lead.Takes, hc]) _
  case case18 ha _ _ hb =>
    exact (pending_four ha).isOf_stop (by simp [begins_cons_iff, ha, Lead.Takes, hb]) _

/-- A decoder that starts anywhere finds the fault of the bytes. -/
theorem decodeFrom_eq_error_iff :
    decodeFrom start b = .error e ↔ ∃ f : Fault, e = f.shift start ∧ f.IsOf b := by
  constructor
  · exact exists_isOf_of_decodeFrom
  · rintro ⟨f, rfl, hf⟩
    cases hd : decodeFrom start b with
    | ok chars =>
      obtain rfl : b = Bytes.ofString (String.ofList chars) := by
        rw [ofString_ofList]
        exact decodeFrom_eq_ok_iff.1 hd
      exact absurd hf.lt_length (Nat.not_lt.2 (hf.longest _ (List.prefix_refl _)))
    | error e =>
      obtain ⟨f', rfl, hf'⟩ := exists_isOf_of_decodeFrom hd
      rw [hf.eq hf']

end Utf8

namespace Bytes

open Utf8

/-- What reading bytes as a text answers: the text that they encode, or else their fault. -/
inductive ReadsAs : Bytes → Except Error String → Prop
  | text (s : String) : ReadsAs (ofString s) (.ok s)
  | fault {b : Bytes} {f : Fault} : f.IsOf b → ReadsAs b (.error (.badText f))

variable {b : Bytes} {f : Fault} {e : Error}

theorem text_eq_error_iff : b.text = .error e ↔ ∃ f : Fault, e = .badText f ∧ f.IsOf b := by
  have hshift : ∀ f : Fault, f.shift 0 = f := fun f => by simp [Fault.shift]
  have hfault : ∀ f : Fault, decodeFrom 0 b = .error f ↔ f.IsOf b := by
    intro f
    rw [decodeFrom_eq_error_iff]
    constructor
    · rintro ⟨f, rfl, hf⟩
      rwa [hshift]
    · exact fun hf => ⟨f, (hshift f).symm, hf⟩
  unfold text decode
  cases hd : decodeFrom 0 b with
  | ok chars =>
    have hnone : ∀ f : Fault, ¬ f.IsOf b := fun f hf => by simp [(hfault f).2 hf] at hd
    simp [Except.map, hnone]
  | error f =>
    have hf := (hfault f).1 hd
    constructor
    · intro h
      cases h
      exact ⟨f, rfl, hf⟩
    · rintro ⟨f', rfl, hf'⟩
      rw [hf.eq hf']
      rfl

theorem readsAs_text (b : Bytes) : b.ReadsAs b.text := by
  cases h : b.text with
  | ok s =>
    obtain rfl := text_eq_ok_iff.1 h
    exact .text s
  | error e =>
    obtain ⟨f, rfl, hf⟩ := text_eq_error_iff.1 h
    exact .fault hf

theorem text_append (s : String) (h : b.text = .error (.badText f)) :
    (ofString s ++ b).text = .error (.badText (f.shift (ofString s).length)) := by
  obtain ⟨f', hf', hf⟩ := text_eq_error_iff.1 h
  obtain rfl : f = f' := by simpa using hf'
  exact text_eq_error_iff.2 ⟨_, rfl, hf.append s⟩

end Bytes
end Devicetree
