import Devicetree.Proofs.Entries
import Devicetree.Proofs.Passes
import Devicetree.Proofs.Utf8
import Devicetree.Search
import Mathlib.Algebra.GroupWithZero.Nat

/-!
# Lists of texts

A value that lists texts can be counted, read into slots, read at an offset or an index, and taken
entry by entry. All of these go by the entries of the value: what is read is the text of an entry,
and what fails tells why an entry has none. Counting and filling go through the entries in order and
stop at the first one without a text; reading a single one does not look at the others.
-/

namespace Devicetree

/-- Byte strings are the encodings of texts, or there is a first one that is none. -/
theorem Bytes.texts_or_fault (es : List Bytes) :
    (∃ texts : List String, es = texts.map ofString) ∨
      ∃ (texts : List String) (e : Bytes) (rest : List Bytes) (fault : Utf8.Fault),
        es = texts.map ofString ++ e :: rest ∧ Utf8.decode e = .error fault := by
  induction es with
  | nil => exact .inl ⟨[], rfl⟩
  | cons e es ih =>
    cases he : Utf8.decode e with
    | error fault => exact .inr ⟨[], e, es, fault, rfl, he⟩
    | ok s =>
      obtain rfl : e = ofString s := text_eq_ok_iff.1 (by rw [text, he])
      rcases ih with ⟨texts, rfl⟩ | ⟨texts, e', rest, fault, rfl, hfault⟩
      · exact .inl ⟨s :: texts, rfl⟩
      · exact .inr ⟨s :: texts, e', rest, fault, rfl, hfault⟩

namespace Value

variable {v e : Bytes} {es : List Bytes} {texts : List String} {s : String}
  {slots after : List (Option String)} {off count i : Nat}

/-! ## Offsets of entries -/

/-- Where an entry starts, if each one before it is closed by a NUL. -/
def startOf (es : List Bytes) (i : Nat) : Nat := ((es.take i).map fun e => e.length + 1).sum

theorem startOf_succ (e : Bytes) (es : List Bytes) (i : Nat) :
    startOf (e :: es) (i + 1) = e.length + 1 + startOf es i := by
  simp [startOf]

theorem firstEntry_drop_startOf (h : (entries v)[i]? = some e) :
    startOf (entries v) i ≤ v.length ∧ firstEntry (v.drop (startOf (entries v) i)) = e := by
  induction i generalizing v with
  | zero =>
    have hne : v ≠ [] := by
      rintro rfl
      simp [entries] at h
    rw [entries_eq_cons hne, List.getElem?_cons_zero] at h
    exact ⟨Nat.zero_le _, Option.some.inj h⟩
  | succ i ih =>
    have hne : v ≠ [] := by
      rintro rfl
      simp [entries] at h
    rw [entries_eq_cons hne, List.getElem?_cons_succ] at h
    rw [entries_eq_cons hne, startOf_succ]
    obtain ⟨hle, hentry⟩ := ih h
    rw [List.drop_drop] at hentry
    have hlt : (firstEntry v).length + 1 ≤ v.length := by
      by_contra hlt
      rw [List.drop_eq_nil_of_le (by omega)] at h
      simp [entries] at h
    rw [List.length_drop] at hle
    exact ⟨by omega, hentry⟩

theorem textAt_startOf {off : UInt64} (h : (entries v)[i]? = some e)
    (hoff : off.toNat = startOf (entries v) i) : textAt v off = e.text := by
  obtain ⟨hle, hentry⟩ := firstEntry_drop_startOf h
  rw [textAt, hoff, if_pos hle, hentry]

/-! ## Slots -/

/-- The texts are in the slots from that of number `count` on, as far as there are slots. All other
slots are as they were. -/
structure Stores (texts : List String) (count : Nat) (slots after : List (Option String)) :
    Prop where
  length_eq : after.length = slots.length
  stored : ∀ i s, texts[i]? = some s → count + i < slots.length →
    after[count + i]? = some (some s)
  unchanged : ∀ j, j < count ∨ count + texts.length ≤ j → after[j]? = slots[j]?

theorem Stores.cons (h : Stores texts (count + 1) (slots.set count (some s)) after) :
    Stores (s :: texts) count slots after := by
  obtain ⟨hlength, hstored, hunchanged⟩ := h
  rw [List.length_set] at hlength
  constructor
  case length_eq => exact hlength
  case stored =>
    intro i s' hs hlt
    cases i with
    | zero =>
      obtain rfl : s = s' := Option.some.inj hs
      exact (hunchanged count (.inl (Nat.lt_succ_self _))).trans (List.getElem?_set_self hlt)
    | succ i =>
      have hnext := hstored i s' hs (by rw [List.length_set]; omega)
      rwa [Nat.add_assoc, Nat.add_comm 1] at hnext
  case unchanged =>
    intro j hj
    rw [List.length_cons] at hj
    rw [hunchanged j (by omega), List.getElem?_set_ne (by omega)]

/-- Reads the texts of a list of entries into slots. -/
def readInto : List Bytes → Nat → List (Option String) → Listing
  | [], count, slots => ⟨.ok count, slots⟩
  | e :: es, count, slots =>
    match e.text with
    | .error f => ⟨.error f, slots⟩
    | .ok s => readInto es (count + 1) (slots.set count (some s))

/-- Texts in front are stored, and reading goes on behind them. -/
theorem exists_stores (texts : List String) (es : List Bytes) (count : Nat)
    (slots : List (Option String)) :
    ∃ after, Stores texts count slots after ∧
      readInto (texts.map Bytes.ofString ++ es) count slots =
        readInto es (count + texts.length) after := by
  induction texts generalizing count slots with
  | nil => exact ⟨slots, ⟨rfl, by simp, fun _ _ => rfl⟩, rfl⟩
  | cons s texts ih =>
    obtain ⟨after, hstores, hread⟩ := ih (count + 1) (slots.set count (some s))
    refine ⟨after, hstores.cons, ?_⟩
    rw [List.map_cons, List.cons_append, readInto, Bytes.text_ofString]
    dsimp only
    rw [hread, List.length_cons, Nat.add_assoc, Nat.add_comm 1]

theorem drop_add_min (v : Bytes) (off n : Nat) :
    v.drop (off + min n (v.length - off)) = (v.drop off).drop n := by
  rw [List.drop_drop]
  by_cases h : n ≤ v.length - off
  · rw [Nat.min_eq_left h]
  · rw [List.drop_eq_nil_of_le (by omega), List.drop_eq_nil_of_le (by omega)]

/-- Filling slots from an offset on goes through the entries there. -/
theorem fillFrom_eq (v : Bytes) (off count : Nat) (slots : List (Option String)) :
    fillFrom v off count slots = readInto (entries (v.drop off)) count slots := by
  fun_induction fillFrom v off count slots with
  | case1 off count slots hlt entry e he =>
    have hne : v.drop off ≠ [] := by simpa using hlt
    rw [entries_eq_cons hne, readInto, he]
  | case2 off count slots hlt entry s hs ih =>
    have hne : v.drop off ≠ [] := by simpa using hlt
    rw [entries_eq_cons hne, readInto, hs, ih, drop_add_min]
  | case3 off count slots hlt =>
    rw [List.drop_eq_nil_of_le (Nat.le_of_not_lt hlt), entries, readInto]

theorem fill_eq (v : Bytes) (slots : List (Option String)) :
    fill v slots = readInto (entries v) 0 slots := fillFrom_eq v 0 0 slots

theorem fill_of_texts (h : entries v = texts.map Bytes.ofString) (slots : List (Option String)) :
    (fill v slots).count = .ok texts.length ∧ Stores texts 0 slots (fill v slots).slots := by
  obtain ⟨after, hstores, hread⟩ := exists_stores texts [] 0 slots
  rw [List.append_nil, ← h, ← fill_eq, readInto, Nat.zero_add] at hread
  rw [hread]
  exact ⟨rfl, hstores⟩

/-- The first entry that is no text is what counting and filling fail with. The texts in front of it
are stored. -/
theorem fill_of_fault {rest : List Bytes} {fault : Utf8.Fault}
    (h : entries v = texts.map Bytes.ofString ++ e :: rest) (hfault : Utf8.decode e = .error fault)
    (slots : List (Option String)) :
    (fill v slots).count = .error (.badText fault) ∧ Stores texts 0 slots (fill v slots).slots := by
  obtain ⟨after, hstores, hread⟩ := exists_stores texts (e :: rest) 0 slots
  rw [← h, ← fill_eq, readInto, Bytes.text, hfault] at hread
  rw [hread]
  exact ⟨rfl, hstores⟩

/-! ## Counted rounds -/

def next? (v : Bytes) : Option (Bytes × Bytes) :=
  if v = [] then none
  else
    match Bytes.untilNul? v with
    | some e => some (e, v.drop (e.length + 1))
    | none => some (v, [])

/-- Takes entries until there are no more, unless that takes more rounds. -/
def entriesWithin : Nat → Bytes → Option (List Bytes)
  | 0, _ => none
  | rounds + 1, v =>
    match next? v with
    | none => some []
    | some (e, rest) => (entriesWithin rounds rest).map (e :: ·)

/-- As `fillFrom`, unless that takes more rounds. -/
def fillWithin (v : Bytes) : Nat → Nat → Nat → List (Option String) → Option Listing
  | 0, _, _, _ => none
  | rounds + 1, off, count, slots =>
    if off < v.length then
      let entry := firstEntry (v.drop off)
      match entry.text with
      | .error e => some ⟨.error e, slots⟩
      | .ok s =>
        fillWithin v rounds (off + min (entry.length + 1) (v.length - off)) (count + 1)
          (slots.set count (some s))
    else some ⟨.ok count, slots⟩

theorem next?_eq (hne : v ≠ []) :
    next? v = some (firstEntry v, v.drop ((firstEntry v).length + 1)) := by
  rw [next?, if_neg hne]
  by_cases hnul : 0 ∈ v
  · obtain ⟨e, rest, rfl, he⟩ := List.eq_append_cons_of_mem hnul
    rw [firstEntry_append he, Bytes.untilNul?_eq_some_iff.2 ⟨he, rest, rfl⟩]
  · have hnone : Bytes.untilNul? v = none := by
      refine Option.eq_none_iff_forall_ne_some.2 fun e he => hnul ?_
      obtain ⟨-, rest, rfl⟩ := Bytes.untilNul?_eq_some_iff.1 he
      simp
    rw [hnone, firstEntry_of_notMem hnul, List.drop_eq_nil_of_le (Nat.le_succ _)]

theorem entriesWithin_eq {rounds : Nat} (h : v.length < rounds) :
    entriesWithin rounds v = some (entries v) := by
  induction rounds generalizing v with
  | zero => exact absurd h (Nat.not_lt_zero _)
  | succ rounds ih =>
    by_cases hne : v = []
    · subst hne
      rfl
    · have hlt : (v.drop ((firstEntry v).length + 1)).length < rounds := by
        have := List.length_pos_iff.2 hne
        rw [List.length_drop]
        omega
      rw [entriesWithin, next?_eq hne]
      dsimp only
      rw [ih hlt, Option.map_some, entries_eq_cons hne]

theorem fillWithin_eq {rounds : Nat} (h : v.length - off < rounds) :
    fillWithin v rounds off count slots = some (fillFrom v off count slots) := by
  induction rounds generalizing off count slots with
  | zero => exact absurd h (Nat.not_lt_zero _)
  | succ rounds ih =>
    rw [fillWithin, fillFrom]
    by_cases hlt : off < v.length
    · rw [if_pos hlt, if_pos hlt]
      dsimp only
      cases (firstEntry (v.drop off)).text with
      | error e => rfl
      | ok s => exact ih (by omega)
    · rw [if_neg hlt, if_neg hlt]

end Value

namespace Node

variable {n : Node} {name : String} {p : Property}

theorem readTextIndex_eq (h : n.property? name = some p) (i : UInt64) :
    n.readTextIndex name i =
      (Value.entries p.value)[i.toNat]?.bind fun e => e.text.toOption := by
  rw [readTextIndex, h]
  rfl

theorem countTexts_eq (h : n.property? name = some p) :
    n.countTexts name = (Value.countTexts p.value).toOption := by
  rw [countTexts, h]
  rfl

end Node

namespace Value

/-- All readers of a list of texts go by its entries. If each entry is a text, counting and filling
tell how many there are; if not, both fail with what is wrong with the first entry that is none, and
the slots hold the texts in front of it. An entry can be read where it starts and by its number, as
a text or not, whatever the others are. No loop over a value takes more rounds than it has bytes and
one more. -/
theorem readers_agree (v : Bytes) (slots : List (Option String)) :
    ((∃ texts, entries v = texts.map Bytes.ofString ∧ countTexts v = .ok texts.length ∧
        (fill v slots).count = .ok texts.length ∧ Stores texts 0 slots (fill v slots).slots) ∨
      ∃ texts e rest fault, entries v = texts.map Bytes.ofString ++ e :: rest ∧
        Utf8.decode e = .error fault ∧ countTexts v = .error (.badText fault) ∧
        (fill v slots).count = .error (.badText fault) ∧
        Stores texts 0 slots (fill v slots).slots) ∧
    (∀ i e, (entries v)[i]? = some e → startOf (entries v) i ≤ v.length ∧
      ∀ off : UInt64, off.toNat = startOf (entries v) i → textAt v off = e.text) ∧
    (∀ (n : Node) name p, n.property? name = some p → p.value = v →
      n.countTexts name = (countTexts v).toOption ∧
      (∀ (i : UInt64) e, (entries v)[i.toNat]? = some e →
        n.readTextIndex name i = e.text.toOption) ∧
      ∀ i : UInt64, (entries v).length ≤ i.toNat → n.readTextIndex name i = none) ∧
    ∀ rounds, v.length < rounds → entriesWithin rounds v = some (entries v) ∧
      fillWithin v rounds 0 0 slots = some (fill v slots) := by
  refine ⟨?_, ?_, ?_, ?_⟩
  · rcases Bytes.texts_or_fault (entries v) with
      ⟨texts, h⟩ | ⟨texts, e, rest, fault, h, hfault⟩
    · exact .inl ⟨texts, h, (fill_of_texts h []).1, fill_of_texts h slots⟩
    · exact .inr ⟨texts, e, rest, fault, h, hfault, (fill_of_fault h hfault []).1,
        fill_of_fault h hfault slots⟩
  · intro i e h
    exact ⟨(firstEntry_drop_startOf h).1, fun off hoff => textAt_startOf h hoff⟩
  · rintro n name p hp rfl
    refine ⟨Node.countTexts_eq hp, fun i e he => ?_, fun i hi => ?_⟩
    · rw [Node.readTextIndex_eq hp, he, Option.bind_some]
    · rw [Node.readTextIndex_eq hp, List.getElem?_eq_none hi, Option.bind_none]
  · intro rounds h
    exact ⟨entriesWithin_eq h, fillWithin_eq h⟩

end Value

/-- A root whose only property lists a text, bytes that are none, and another text without a NUL. -/
def Blob.sampleTexts : Blob where
  address := 0x1000
  bytes := List.flatMap Bytes.ofWord32
    [0xd00dfeed, 80, 40, 76, 0, 17, 16, 0, 4, 36,
      1, 0, 3, 5, 0, 0x6100ff00, 0x62000000, 2, 9, 0x73000000]
  headerSize_le := by decide +kernel
  length_lt := by decide +kernel

namespace Value

theorem readers_agree_sample :
    ∃ t, (build .sampleTexts (.fresh 0)).result = .ok t ∧ t.root.countTexts "s" = none ∧
      t.root.readTextIndex "s" 0 = some "a" ∧ t.root.readTextIndex "s" 1 = none ∧
      t.root.readTextIndex "s" 2 = some "b" ∧ t.root.readTextIndex "s" 3 = none ∧
      textAt [0x61, 0, 0xff, 0, 0x62] 4 = .ok "b" ∧
      entriesWithin 6 [0x61, 0, 0xff, 0, 0x62] = some [[0x61], [0xff], [0x62]] := by
  have hcheck : ((build .sampleTexts (.fresh 0)).result.toOption.map fun t =>
      (t.root.property? "s").map Property.value) = some (some [0x61, 0, 0xff, 0, 0x62]) := by
    decide +kernel
  obtain ⟨t, ht, hvalue⟩ := Build.exists_of_result hcheck
  obtain ⟨p, hp, hv⟩ := Option.map_eq_some_iff.1 hvalue
  obtain ⟨-, hstarts, hnodes, hrounds⟩ := readers_agree [0x61, 0, 0xff, 0, 0x62] []
  obtain ⟨hcount, hindex, hbeyond⟩ := hnodes t.root "s" p hp hv
  refine ⟨t, ht, hcount.trans (by decide +kernel), ?_, ?_, ?_, ?_, ?_, ?_⟩
  · exact (hindex 0 [0x61] (by decide)).trans (by decide +kernel)
  · exact (hindex 1 [0xff] (by decide)).trans (by decide +kernel)
  · exact (hindex 2 [0x62] (by decide)).trans (by decide +kernel)
  · exact hbeyond 3 (by decide)
  · exact ((hstarts 2 [0x62] (by decide)).2 4 (by decide)).trans (by decide +kernel)
  · exact (hrounds 6 (by decide)).1.trans (by decide)

end Value
end Devicetree
