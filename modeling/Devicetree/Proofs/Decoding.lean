import Devicetree.Proofs.Encoding

/-!
# Decoding

What a read answers says what stands in the bytes: a token that was read is encoded there, and a
read that fails got as far as the bytes make sense. So the reads from an offset on yield some tokens
and then the end just where the bytes there are the tokens' encoding with an end token behind it.
-/

namespace Devicetree
namespace Bytes

variable {b s first second : Bytes} {n m : Nat} {off length : UInt64} {w : UInt32}

theorem ofWord32_bigEndian (h : s.length = 4) : ofWord32 (UInt32.ofNat (bigEndian s)) = s := by
  obtain ⟨x, y, z, v, rfl⟩ : ∃ x y z v, s = [x, y, z, v] := by
    match s, h with
    | [x, y, z, v], _ => exact ⟨x, y, z, v, rfl⟩
  have hx := x.toNat_lt
  have hy := y.toNat_lt
  have hz := z.toNat_lt
  have hv := v.toNat_lt
  simp only [ofWord32, bigEndian, List.foldl_cons, List.foldl_nil, List.cons.injEq, and_true,
    ← UInt8.toNat_inj, UInt32.toNat_toUInt8, UInt32.toNat_shiftRight, UInt32.toNat_ofNat',
    Nat.shiftRight_eq_div_pow]
  simp
  omega

theorem Holds.append (hfirst : b.Holds n first) (hsecond : b.Holds (n + first.length) second) :
    b.Holds n (first ++ second) := by
  obtain ⟨before, after, rfl, rfl⟩ := hfirst
  obtain ⟨after', hdrop⟩ := hsecond.drop
  rw [← List.length_append, List.drop_left] at hdrop
  exact ⟨before, after', by rw [hdrop]; simp, rfl⟩

theorem exists_holds (hn : n + m ≤ b.length) : ∃ s, s.length = m ∧ b.Holds n s := by
  have hlength : ((b.drop n).take m).length = m := by
    rw [List.length_take, List.length_drop]
    omega
  exact ⟨_, hlength, Holds.of_take_drop (by rw [hlength]) (by omega)⟩

theorem holds_of_slice? (h : b.slice? off length = some s) : b.Holds off.toNat s := by
  obtain ⟨hlength, hle⟩ := length_of_slice? h
  obtain ⟨-, -, heq⟩ := slice?_eq_some_iff.1 h
  exact Holds.of_take_drop (by rw [hlength, ← heq]) (by omega)

theorem lt_of_slice?_eq_none (hb : b.length < 2 ^ 63) (h : b.slice? off length = none) :
    b.length < off.toNat + length.toNat := by
  have hsize : UInt64.size = 2 ^ 64 := rfl
  by_contra hle
  have hslice := slice?_eq_some_iff.2 ⟨by omega, Nat.le_of_not_lt hle, rfl⟩
  exact Option.some_ne_none _ (hslice.symm.trans h)

theorem holds_of_word32? (h : b.word32? off = some w) : b.Holds off.toNat (ofWord32 w) := by
  obtain ⟨s, hs, rfl⟩ := Option.map_eq_some_iff.1 h
  rw [ofWord32_bigEndian (length_of_slice? hs).1]
  exact holds_of_slice? hs

theorem lt_of_word32?_eq_none (hb : b.length < 2 ^ 63) (h : b.word32? off = none) :
    b.length < off.toNat + 4 := by
  by_contra hle
  obtain ⟨w, hw⟩ := exists_word32? hb (Nat.le_of_not_lt hle)
  exact Option.some_ne_none _ (hw.symm.trans h)

theorem holds_of_untilNul? {rest name : Bytes} (hrest : rest <+: b.drop n)
    (h : untilNul? rest = some name) : b.Holds n (name ++ [0]) ∧ 0 ∉ name := by
  obtain ⟨hnul, behind, rfl⟩ := untilNul?_eq_some_iff.1 h
  obtain ⟨more, hmore⟩ := hrest
  refine ⟨?_, hnul⟩
  have hn : n ≤ b.length := by
    by_contra hlt
    rw [List.drop_eq_nil_of_le (Nat.le_of_not_le hlt)] at hmore
    simp at hmore
  have hdrop : name ++ [0] ++ (behind ++ more) = b.drop n := by
    rw [← hmore]
    simp
  refine ⟨b.take n, behind ++ more, ?_, List.length_take_of_le hn⟩
  rw [List.append_assoc, hdrop, List.take_append_drop]

end Bytes

namespace Token

open Bytes

/-! ## What one read answers -/

def wordEnd (n : Nat) : Nat := (n + 3) / 4 * 4

/-- Where a value of the given length starts, if its header ends at `n`. -/
def valueBegin (legacy : Bool) (length n : Nat) : Nat :=
  if legacy then if 8 ≤ length then (n + 7) / 8 * 8 else wordEnd n else n

/-- The answer to a read at an offset and the offset behind it, by what the bytes hold there. -/
inductive Reading (bytes : Bytes) (legacy : Bool) (n : Nat) :
    Except Error (Option Token) → Nat → Prop
  | short : bytes.length < n + 4 → Reading bytes legacy n (.error .malformed) n
  | unknown {tag : UInt32} : bytes.Holds n (ofWord32 tag) →
      tag ∉ [beginNodeTag, endNodeTag, propertyTag, nopTag, endTag] →
      Reading bytes legacy n (.error .malformed) (n + 4)
  | endNode : bytes.Holds n (ofWord32 endNodeTag) →
      Reading bytes legacy n (.ok (some .endNode)) (n + 4)
  | nop : bytes.Holds n (ofWord32 nopTag) → Reading bytes legacy n (.ok (some .nop)) (n + 4)
  | stop : bytes.Holds n (ofWord32 endTag) → Reading bytes legacy n (.ok none) (n + 4)
  | beginNode {name : Bytes} : bytes.Holds n (ofWord32 beginNodeTag) →
      bytes.Holds (n + 4) (name ++ [0]) → 0 ∉ name → (legacy = false → name.length ≤ 255) →
      Reading bytes legacy n (.ok (some (.beginNode name))) (wordEnd (n + 4 + (name.length + 1)))
  | unnamed : bytes.Holds n (ofWord32 beginNodeTag) →
      (∀ name, bytes.Holds (n + 4) (name ++ [0]) → 0 ∉ name → legacy = false ∧ 255 < name.length) →
      Reading bytes legacy n (.error .malformed) (n + 4)
  | property {length nameOffset : UInt32} {value : Bytes} : bytes.Holds n (ofWord32 propertyTag) →
      bytes.Holds (n + 4) (ofWord32 length) → bytes.Holds (n + 8) (ofWord32 nameOffset) →
      length.toNat = value.length → bytes.Holds (valueBegin legacy value.length (n + 12)) value →
      Reading bytes legacy n (.ok (some (.property nameOffset value)))
        (wordEnd (valueBegin legacy value.length (n + 12) + value.length))
  | headless : bytes.Holds n (ofWord32 propertyTag) → bytes.length < n + 12 →
      Reading bytes legacy n (.error .malformed) (n + 4)
  | valueless {length nameOffset : UInt32} : bytes.Holds n (ofWord32 propertyTag) →
      bytes.Holds (n + 4) (ofWord32 length) → bytes.Holds (n + 8) (ofWord32 nameOffset) →
      bytes.length < valueBegin legacy length.toNat (n + 12) + length.toNat →
      Reading bytes legacy n (.error .malformed) (valueBegin legacy length.toNat (n + 12))

variable {bytes name value : Bytes} {legacy : Bool} {off stop : UInt64} {n : Nat}
  {length nameOffset : UInt32}

theorem toNat_wordEnd (h : off.toNat < 2 ^ 63 + 2 ^ 33) :
    (Word.alignUp off 4).toNat = wordEnd off.toNat := by
  have hsize : UInt64.size = 2 ^ 64 := rfl
  rw [Word.toNat_alignUp (n := 4) rfl ⟨2, rfl⟩ (by omega), wordEnd]

theorem toNat_valueBegin (h : off.toNat < 2 ^ 63 + 2 ^ 33) :
    (valueStart legacy length off).toNat = valueBegin legacy length.toNat off.toNat := by
  have hsize : UInt64.size = 2 ^ 64 := rfl
  have hle : 8 ≤ length ↔ 8 ≤ length.toNat := UInt32.le_iff_toNat_le
  unfold valueStart valueBegin
  cases legacy with
  | false => rfl
  | true =>
    simp only [if_true]
    by_cases hlong : 8 ≤ length
    · rw [if_pos hlong, if_pos (hle.1 hlong), Word.toNat_alignUp (n := 8) rfl ⟨3, rfl⟩ (by omega)]
    · rw [if_neg hlong, if_neg (fun h => hlong (hle.2 h)), toNat_wordEnd h]

theorem holds_name
    (h : (if legacy then bytes.string? off else bytes.stringWithin? off maxNameLength) =
      some name) :
    bytes.Holds off.toNat (name ++ [0]) ∧ 0 ∉ name ∧ (legacy = false → name.length ≤ 255) := by
  cases legacy with
  | true =>
    obtain ⟨hholds, hnul⟩ := holds_of_untilNul? List.prefix_rfl h
    exact ⟨hholds, hnul, nofun⟩
  | false =>
    obtain ⟨hholds, hnul⟩ := holds_of_untilNul? (List.take_prefix _ _) h
    have hlt := length_of_untilNul? h
    rw [List.length_take, maxNameLength] at hlt
    exact ⟨hholds, hnul, fun _ => by omega⟩

theorem of_readName_eq_some (hbytes : bytes.length < 2 ^ 63)
    (h : readName bytes legacy off = some (name, stop)) :
    bytes.Holds off.toNat (name ++ [0]) ∧ 0 ∉ name ∧ (legacy = false → name.length ≤ 255) ∧
      stop.toNat = wordEnd (off.toNat + (name.length + 1)) := by
  obtain ⟨s, hs, heq⟩ := Option.map_eq_some_iff.1 h
  cases heq
  obtain ⟨hholds, hnul, hlimit⟩ := holds_name hs
  have hle := hholds.add_length_le
  rw [List.length_append, List.length_singleton] at hle
  have hlength : (UInt64.ofNat name.length).toNat = name.length := toNat_ofNat_length (by omega)
  have hsum : (off + (UInt64.ofNat name.length + 1)).toNat = off.toNat + (name.length + 1) :=
    Word.toNat_add rfl (Word.toNat_add hlength rfl (by omega)) (by omega)
  refine ⟨hholds, hnul, hlimit, ?_⟩
  rw [toNat_wordEnd (by omega), hsum]

theorem of_readName_eq_none (h : readName bytes legacy off = none)
    (hname : bytes.Holds off.toNat (name ++ [0])) (hnul : 0 ∉ name) :
    legacy = false ∧ 255 < name.length := by
  have hs := Option.map_eq_none_iff.1 h
  cases legacy with
  | true => cases hs.symm.trans (hname.string? hnul rfl)
  | false =>
    refine ⟨rfl, ?_⟩
    by_contra hle
    have hlt : name.length < maxNameLength := by
      rw [maxNameLength]
      omega
    cases hs.symm.trans (hname.stringWithin? hnul rfl hlt)

theorem lt_of_headless (hbytes : bytes.length < 2 ^ 63)
    (h : ∀ length nameOffset, bytes.word32? off = some length →
      bytes.word32? (off + 4) = some nameOffset → False) : bytes.length < off.toNat + 8 := by
  by_contra hle
  have hfour : (off + 4).toNat = off.toNat + 4 := Word.toNat_add rfl rfl (by omega)
  obtain ⟨length, hlength⟩ : ∃ w, bytes.word32? off = some w := exists_word32? hbytes (by omega)
  obtain ⟨nameOffset, hname⟩ : ∃ w, bytes.word32? (off + 4) = some w :=
    exists_word32? hbytes (by omega)
  exact h _ _ hlength hname

/-- A property whose header is inside the bytes is read, or its value is not inside. -/
theorem reading_property (hbytes : bytes.length < 2 ^ 63) (hoff : off.toNat = n + 4)
    (htag : bytes.Holds n (ofWord32 propertyTag)) {answer : Option (UInt32 × Bytes)}
    (h : readProperty bytes legacy off = (answer, stop)) :
    Reading bytes legacy n
      (answer.elim (.error .malformed) fun p => .ok (some (.property p.1 p.2))) stop.toNat := by
  have htagged := htag.add_length_le
  rw [length_ofWord32] at htagged
  have hfour : (off + 4).toNat = n + 4 + 4 := Word.toNat_add hoff rfl (by omega)
  have height : (off + 8).toNat = n + 4 + 8 := Word.toNat_add hoff rfl (by omega)
  unfold readProperty at h
  split at h
  · rename_i length nameOffset hlength hname
    have hholds := holds_of_word32? hlength
    have hholds' := holds_of_word32? hname
    rw [hoff] at hholds
    rw [hfour] at hholds'
    have hle := hholds'.add_length_le
    rw [length_ofWord32] at hle
    have hbegin : (valueStart legacy length (off + 8)).toNat =
        valueBegin legacy length.toNat (n + 12) := by
      rw [toNat_valueBegin (by omega), height]
    have hsize := length.toNat_lt
    dsimp only at h
    split at h
    · rename_i value hvalue
      cases h
      obtain ⟨hvlength, hvle⟩ := length_of_slice? hvalue
      have hvholds := holds_of_slice? hvalue
      rw [UInt32.toNat_toUInt64] at hvlength hvle
      rw [← hvlength] at hbegin hvle hsize
      rw [hbegin] at hvle hvholds
      have hend : (valueStart legacy length (off + 8) + UInt64.ofNat value.length).toNat =
          valueBegin legacy value.length (n + 12) + value.length :=
        Word.toNat_add hbegin (toNat_ofNat_length (by omega)) (by omega)
      rw [toNat_wordEnd (by omega), hend]
      exact .property htag hholds hholds' hvlength.symm hvholds
    · rename_i hvalue
      cases h
      have hlt := lt_of_slice?_eq_none hbytes hvalue
      rw [UInt32.toNat_toUInt64, hbegin] at hlt
      rw [hbegin]
      exact .valueless htag hholds hholds' hlt
  · rename_i hnone
    cases h
    rw [hoff]
    have hlt := lt_of_headless hbytes hnone
    rw [hoff] at hlt
    exact .headless htag hlt

/-- Every read is one of these. -/
theorem reading_read (hbytes : bytes.length < 2 ^ 63) (legacy : Bool) (off : UInt64) :
    Reading bytes legacy off.toNat (read bytes legacy off).1 (read bytes legacy off).2.toNat := by
  unfold read
  cases htag : bytes.word32? off with
  | none => exact .short (lt_of_word32?_eq_none hbytes htag)
  | some tag =>
    have hholds := holds_of_word32? htag
    have hle := add_le_of_word32? htag
    have hfour : (off + 4).toNat = off.toNat + 4 := Word.toNat_add rfl rfl (by omega)
    dsimp only
    split_ifs with hbegin hend hproperty hnop hstop
    · subst hbegin
      split
      · rename_i name stop hname
        obtain ⟨hname, hnul, hlimit, hstop⟩ := of_readName_eq_some hbytes hname
        rw [hstop, hfour]
        exact .beginNode hholds (hfour ▸ hname) hnul hlimit
      · rename_i hname
        rw [hfour]
        refine .unnamed hholds fun name hname' hnul => ?_
        exact of_readName_eq_none hname (hfour ▸ hname') hnul
    · subst hend
      rw [hfour]
      exact .endNode hholds
    · subst hproperty
      split
      · rename_i hprop
        exact reading_property hbytes hfour hholds hprop
      · rename_i hprop
        exact reading_property hbytes hfour hholds hprop
    · subst hnop
      rw [hfour]
      exact .nop hholds
    · subst hstop
      rw [hfour]
      exact .stop hholds
    · rw [hfour]
      refine .unknown hholds ?_
      simp [hbegin, hend, hproperty, hnop, hstop]

/-! ## Tokens and their encodings -/

theorem exists_fills {k align stop : Nat} (hstop : stop = (k + (align - 1)) / align * align)
    (halign : 0 < align) (hle : stop ≤ bytes.length) :
    ∃ padding, Fills k align padding ∧ bytes.Holds k padding ∧ k + padding.length = stop := by
  have hdiv := Nat.div_add_mod (k + (align - 1)) align
  have hmod := Nat.mod_lt (k + (align - 1)) halign
  rw [Nat.mul_comm, ← hstop] at hdiv
  obtain ⟨padding, hlength, hholds⟩ : ∃ s, s.length = stop - k ∧ bytes.Holds k s :=
    exists_holds (by omega)
  have hend : k + padding.length = stop := by omega
  refine ⟨padding, ⟨by omega, ?_⟩, hholds, hend⟩
  rw [hend, hstop, Nat.mul_mod_left]

theorem exists_fills_wordEnd {k : Nat} (hle : wordEnd k ≤ bytes.length) :
    ∃ padding, Fills k 4 padding ∧ bytes.Holds k padding ∧ k + padding.length = wordEnd k :=
  exists_fills rfl (by decide) hle

/-- From a multiple of four, only long legacy values start later than their header ends. -/
theorem valueBegin_eq {k : Nat} (length : Nat) (hk : k % 4 = 0) :
    valueBegin legacy length k = (k + ((if legacy ∧ 8 ≤ length then 8 else 1) - 1)) /
      (if legacy ∧ 8 ≤ length then 8 else 1) * (if legacy ∧ 8 ≤ length then 8 else 1) := by
  have hword : wordEnd k = k := by
    rw [wordEnd]
    omega
  unfold valueBegin
  cases legacy with
  | false => simp
  | true => by_cases hlong : 8 ≤ length <;> simp [hlong, hword]

/-- A token that was read is encoded where it was read, if its padding is there too. -/
theorem Reading.exists_encodes {t : Token} {stop : Nat}
    (h : Reading bytes legacy n (.ok (some t)) stop) (hn : n % 4 = 0)
    (hstop : stop ≤ bytes.length) :
    ∃ chunk, Encodes legacy n t chunk ∧ bytes.Holds n chunk ∧ n + chunk.length = stop := by
  cases h with
  | endNode h => exact ⟨_, .endNode, h, rfl⟩
  | nop h => exact ⟨_, .nop, h, rfl⟩
  | @beginNode name htag hname hnul hlimit =>
    obtain ⟨padding, hfills, hpadding, hend⟩ := exists_fills_wordEnd hstop
    refine ⟨_, .beginNode hnul hlimit hfills, htag.append (hname.append ?_), ?_⟩
    · simpa [Nat.add_assoc] using hpadding
    · rw [← hend]
      simp
      omega
  | @property length nameOffset value htag hlength hname heq hvalue =>
    have hvle := hvalue.add_length_le
    obtain ⟨gap, hgap, hgapped, hbegin⟩ := exists_fills (valueBegin_eq value.length (by omega))
      (by split <;> decide) (Nat.le_of_add_right_le hvle)
    rw [← hbegin] at hvalue hstop ⊢
    obtain ⟨padding, hfills, hpadding, hend⟩ := exists_fills_wordEnd hstop
    refine ⟨_, .property heq hgap hfills, ?_, ?_⟩
    · exact htag.append (hlength.append (hname.append (hgapped.append (hvalue.append hpadding))))
    · rw [← hend]
      simp
      omega

/-! ## Many reads -/

/-- The answers to a number of reads, each from where the one before left the offset, and the offset
after them. -/
def readMany (bytes : Bytes) (legacy : Bool) :
    Nat → UInt64 → List (Except Error (Option Token)) × UInt64
  | 0, off => ([], off)
  | count + 1, off =>
    let (answer, off) := read bytes legacy off
    let (answers, off) := readMany bytes legacy count off
    (answer :: answers, off)

variable {answer : Except Error (Option Token)} {answers : List (Except Error (Option Token))}
  {count : Nat}

theorem readMany_succ_eq_iff :
    readMany bytes legacy (count + 1) off = (answer :: answers, stop) ↔
      (read bytes legacy off).1 = answer ∧
        readMany bytes legacy count (read bytes legacy off).2 = (answers, stop) := by
  rw [readMany]
  simp only [List.cons.injEq, and_assoc, Prod.ext_iff]

theorem Reading.mod_four {answer : Except Error (Option Token)} {stop : Nat}
    (h : Reading bytes legacy n answer stop) (hn : n % 4 = 0) : stop % 4 = 0 := by
  have hword : ∀ k, wordEnd k % 4 = 0 := fun k => Nat.mul_mod_left _ _
  have hbegin : ∀ length, valueBegin legacy length (n + 12) % 4 = 0 := by
    intro length
    unfold valueBegin
    split_ifs
    · omega
    · exact hword _
    · omega
  cases h
  case beginNode | property => exact hword _
  case valueless => exact hbegin _
  all_goals omega

theorem read_eq_end_iff (hbytes : bytes.length < 2 ^ 63) :
    read bytes legacy off = (.ok none, stop) ↔
      bytes.Holds off.toNat (ofWord32 endTag) ∧ stop.toNat = off.toNat + 4 := by
  constructor
  · intro h
    have hreading := reading_read hbytes legacy off
    rw [h] at hreading
    generalize stop.toNat = k at hreading
    cases hreading with
    | stop h => exact ⟨h, rfl⟩
  · rintro ⟨h, hstop⟩
    have hword := h.word32? hbytes rfl
    have hle := h.add_length_le
    rw [length_ofWord32] at hle
    obtain rfl : stop = off + 4 := by
      rw [← UInt64.toNat_inj, hstop, Word.toNat_add rfl rfl]
      · rfl
      · exact Nat.lt_of_le_of_lt hle (by omega)
    rw [Token.read, hword]
    rfl

/-- Reading as many tokens as are in a list, and once more, yields the list and then the end just
where the bytes hold the tokens' encoding and an end token behind it. What stands in the padding and
behind the end token does not matter. -/
theorem readMany_eq_iff (hbytes : bytes.length < 2 ^ 63) (hoff : off.toNat % 4 = 0)
    (tokens : List Token) :
    readMany bytes legacy (tokens.length + 1) off =
        (tokens.map (fun t => .ok (some t)) ++ [.ok none], stop) ↔
      ∃ chunk, Written legacy off.toNat tokens chunk ∧
        bytes.Holds off.toNat (chunk ++ ofWord32 endTag) ∧
        stop.toNat = off.toNat + chunk.length + 4 := by
  induction tokens generalizing off with
  | nil =>
    have hread : readMany bytes legacy 1 off = ([.ok none], stop) ↔
        read bytes legacy off = (.ok none, stop) := by
      rw [readMany_succ_eq_iff, readMany, Prod.mk.injEq, Prod.ext_iff]
      simp
    refine hread.trans ((read_eq_end_iff hbytes).trans ?_)
    constructor
    · rintro ⟨hholds, hstop⟩
      exact ⟨[], .nil, hholds, hstop⟩
    · rintro ⟨_, hwritten, hholds, hstop⟩
      cases hwritten
      exact ⟨hholds, hstop⟩
  | cons t rest ih =>
    rw [List.length_cons, List.map_cons, List.cons_append, readMany_succ_eq_iff]
    have hreading := reading_read hbytes legacy off
    have hmod := hreading.mod_four hoff
    rw [ih hmod]
    constructor
    · rintro ⟨ht, later, hwritten, hholds, hstop⟩
      rw [ht] at hreading
      have hle := hholds.add_length_le
      obtain ⟨chunk, hencodes, hchunk, hend⟩ := hreading.exists_encodes hoff (by omega)
      rw [← hend] at hwritten hholds hstop
      refine ⟨chunk ++ later, .cons hencodes hwritten, ?_, ?_⟩
      · rw [List.append_assoc]
        exact hchunk.append hholds
      · rw [hstop, List.length_append]
        omega
    · rintro ⟨_, hwritten, hholds, hstop⟩
      cases hwritten with
      | @cons _ _ chunk later _ hencodes hwritten =>
        rw [List.append_assoc] at hholds
        obtain ⟨next, hread, hnext, -⟩ := hencodes.read hbytes hoff hholds.left rfl
        rw [hread, hnext]
        refine ⟨rfl, later, hwritten, hholds.right, ?_⟩
        rw [hstop, List.length_append]
        omega

/-- A node with a long value in a legacy layout. The value has a gap before it. -/
def sampleBytes : Bytes :=
  ofWord32 beginNodeTag ++ [0x61, 0, 7, 7] ++ ofWord32 propertyTag ++ ofWord32 8 ++ ofWord32 5 ++
    [7, 7, 7, 7] ++ [1, 2, 3, 4, 5, 6, 7, 8] ++ ofWord32 endNodeTag ++ ofWord32 endTag ++ [7]

theorem readMany_eq_iff_sample :
    ∃ chunk,
      Written true 0 [.beginNode [0x61], .property 5 [1, 2, 3, 4, 5, 6, 7, 8], .endNode] chunk ∧
      sampleBytes.Holds 0 (chunk ++ ofWord32 endTag) := by
  have hread : readMany sampleBytes true 4 0 = ([.ok (some (.beginNode [0x61])),
      .ok (some (.property 5 [1, 2, 3, 4, 5, 6, 7, 8])), .ok (some .endNode), .ok none], 40) := by
    decide +kernel
  obtain ⟨chunk, hwritten, hholds, -⟩ := (readMany_eq_iff (by decide) rfl
    [.beginNode [0x61], .property 5 [1, 2, 3, 4, 5, 6, 7, 8], .endNode]).1 hread
  exact ⟨chunk, hwritten, hholds⟩

end Token
end Devicetree
