import Devicetree.Proofs.Names
import Devicetree.Proofs.Progress

/-!
# Cells

A cell is read at a byte offset, which need not be a multiple of four, or by its number in a
property. A read is answered just where all the bytes it takes are in the value, also for offsets
and numbers close to the last word, and a double cell is two cells. The cells of a value, read by
their numbers from zero on, are the value itself, less the last bytes that do not make up a cell.
-/

namespace Devicetree

/-! ## Numbers in two parts -/

namespace Bytes

variable {b : Bytes} {n : Nat} {off : UInt64} {high low : UInt32}

theorem bigEndian_append (first second : Bytes) :
    bigEndian (first ++ second) = bigEndian first * 256 ^ second.length + bigEndian second := by
  induction second using List.reverseRecOn with
  | nil => simp [bigEndian]
  | append_singleton second d ih =>
    have hlast : ∀ s : Bytes, bigEndian (s ++ [d]) = 256 * bigEndian s + d.toNat := by
      intro s
      simp [bigEndian, List.foldl_append]
    rw [← List.append_assoc, hlast, hlast, ih, List.length_append, List.length_singleton,
      Nat.pow_succ, ← Nat.mul_assoc]
    omega

theorem Holds.word64? (h : b.Holds n (ofWord32 high ++ ofWord32 low)) (hb : b.length < 2 ^ 63)
    (hoff : off.toNat = n) :
    b.word64? off = some (UInt64.ofNat (high.toNat * 2 ^ 32 + low.toNat)) := by
  have hslice : b.slice? off 8 = some (ofWord32 high ++ ofWord32 low) := h.slice? hb hoff rfl
  have hradix : 256 ^ 4 = 2 ^ 32 := rfl
  rw [Bytes.word64?, hslice, Option.map_some, bigEndian_append, bigEndian_ofWord32,
    bigEndian_ofWord32, length_ofWord32, hradix]

theorem exists_holds_word (hn : n + 4 ≤ b.length) : ∃ w, b.Holds n (ofWord32 w) := by
  obtain ⟨s, hlength, hs⟩ := exists_holds hn
  exact ⟨_, (ofWord32_bigEndian hlength).symm ▸ hs⟩

theorem add_le_of_word64? {w : UInt64} (h : b.word64? off = some w) : off.toNat + 8 ≤ b.length := by
  obtain ⟨s, hs, -⟩ := Option.map_eq_some_iff.1 h
  exact (length_of_slice? hs).2

end Bytes

/-! ## Reads at offsets -/

namespace Value

open Bytes

variable {v : Bytes} {off : UInt64} {w : UInt32}

theorem cellAt_eq_ok_iff_word32? : cellAt v off = .ok w ↔ v.word32? off = some w := by
  unfold cellAt
  cases v.word32? off <;> simp

theorem cellAt_eq_ok_iff (hv : v.length < 2 ^ 63) :
    cellAt v off = .ok w ↔ v.Holds off.toNat (ofWord32 w) := by
  rw [cellAt_eq_ok_iff_word32?]
  exact ⟨holds_of_word32?, fun h => h.word32? hv rfl⟩

theorem exists_cellAt_iff (hv : v.length < 2 ^ 63) :
    (∃ w, cellAt v off = .ok w) ↔ off.toNat + 4 ≤ v.length := by
  simp only [cellAt_eq_ok_iff_word32?]
  exact ⟨fun ⟨_, hw⟩ => add_le_of_word32? hw, exists_word32? hv⟩

theorem cellAt_eq_error (h : v.length < off.toNat + 4) : cellAt v off = .error .badOffset := by
  unfold cellAt
  cases hw : v.word32? off with
  | none => rfl
  | some w => exact absurd (add_le_of_word32? hw) (Nat.not_le.2 h)

theorem doubleCellAt_eq_error (h : v.length < off.toNat + 8) :
    doubleCellAt v off = .error .badOffset := by
  unfold doubleCellAt
  cases hw : v.word64? off with
  | none => rfl
  | some w => exact absurd (add_le_of_word64? hw) (Nat.not_le.2 h)

theorem exists_doubleCellAt (hv : v.length < 2 ^ 63) (h : off.toNat + 8 ≤ v.length) :
    ∃ next high low, Word.add? off 4 = some next ∧ cellAt v off = .ok high ∧
      cellAt v next = .ok low ∧
      doubleCellAt v off = .ok (UInt64.ofNat (high.toNat * 2 ^ 32 + low.toNat)) := by
  have hfour : (4 : UInt64).toNat = 4 := rfl
  have hsize : UInt64.size = 2 ^ 64 := rfl
  obtain ⟨hadd, hnext⟩ := Word.add?_of_lt (a := off) (b := 4) (by omega)
  obtain ⟨high, hhigh⟩ : ∃ high, v.Holds off.toNat (ofWord32 high) := exists_holds_word (by omega)
  obtain ⟨low, hlow⟩ : ∃ low, v.Holds (off.toNat + 4) (ofWord32 low) :=
    exists_holds_word (by omega)
  have hboth : v.Holds off.toNat (ofWord32 high ++ ofWord32 low) := hhigh.append hlow
  refine ⟨off + 4, high, low, hadd, (cellAt_eq_ok_iff hv).2 hhigh, ?_, ?_⟩
  · rw [cellAt_eq_ok_iff hv, hnext]
    exact hlow
  · rw [doubleCellAt, hboth.word64? hv rfl]

/-! ## Reads by number -/

/-- The cells of a value in order. The last bytes may be too few for one. -/
def cells (v : Bytes) : List UInt32 :=
  (List.range (v.length / 4)).map fun i => UInt32.ofNat (bigEndian ((v.drop (4 * i)).take 4))

theorem ofWord32_cell {i : Nat} (hi : i < v.length / 4) :
    ofWord32 (UInt32.ofNat (bigEndian ((v.drop (4 * i)).take 4))) = (v.drop (4 * i)).take 4 := by
  apply ofWord32_bigEndian
  rw [List.length_take, List.length_drop]
  omega

theorem flatMap_cells (v : Bytes) : (cells v).flatMap ofWord32 = v.take (v.length / 4 * 4) := by
  have hfirst : ∀ k ≤ v.length / 4, (List.range k).flatMap (fun i =>
      ofWord32 (UInt32.ofNat (bigEndian ((v.drop (4 * i)).take 4)))) = v.take (k * 4) := by
    intro k hk
    induction k with
    | zero => simp
    | succ k ih =>
      rw [List.range_succ, List.flatMap_append, ih (Nat.le_of_succ_le hk), List.flatMap_singleton,
        ofWord32_cell hk, Nat.mul_comm 4 k, Nat.succ_mul, List.take_add]
  rw [cells, List.flatMap_map]
  exact hfirst _ (Nat.le_refl _)

@[simp] theorem length_cells (v : Bytes) : (cells v).length = v.length / 4 := by
  rw [cells, List.length_map, List.length_range]

theorem getElem?_cells {i : Nat} : (cells v)[i]? = some w ↔ v.Holds (4 * i) (ofWord32 w) := by
  rw [cells, List.getElem?_map]
  constructor
  · intro h
    obtain ⟨j, hj, rfl⟩ := Option.map_eq_some_iff.1 h
    obtain ⟨hlt, rfl⟩ := List.getElem?_eq_some_iff.1 hj
    rw [List.length_range] at hlt
    rw [List.getElem_range]
    apply Holds.of_take_drop _ (by omega)
    rw [length_ofWord32]
    exact (ofWord32_cell hlt).symm
  · intro h
    have hle := h.add_length_le
    rw [length_ofWord32] at hle
    obtain ⟨after, hafter⟩ := h.drop
    rw [List.getElem?_range (by omega), Option.map_some, hafter, ← length_ofWord32 w,
      List.take_left, bigEndian_ofWord32, UInt32.ofNat_toNat]

end Value

theorem Node.readCellIndex_eq_some_iff {n : Node} {name : String} {i : UInt64} {w : UInt32} :
    n.readCellIndex name i = some w ↔ ∃ (p : Property) (off : UInt64), n.HasFirst name p ∧
      off.toNat = 4 * i.toNat ∧ Value.cellAt p.value off = .ok w := by
  have hcell : ∀ {r : Except Error UInt32}, r.toOption = some w ↔ r = .ok w := by
    intro r
    cases r <;> simp [Except.toOption]
  have hmul : ∀ off, Word.mul? i 4 = some off ↔ off.toNat = 4 * i.toNat := by
    intro off
    rw [Word.mul?_eq_some_iff, Nat.mul_comm]
    rfl
  simp only [readCellIndex, Option.bind_eq_bind, Option.bind_eq_some_iff, property?_eq_some_iff,
    hmul, hcell]
  constructor
  · rintro ⟨off, hoff, p, hp, hw⟩
    exact ⟨p, off, hp, hoff, hw⟩
  · rintro ⟨p, off, hp, hoff, hw⟩
    exact ⟨off, hoff, p, hp, hw⟩

namespace Value

open Bytes

variable {v : Bytes}

theorem readCellIndex_eq (hv : v.length < 2 ^ 63) {n : Node} {name : String} {p : Property}
    (hp : n.HasFirst name p) (hvalue : p.value = v) (i : UInt64) :
    n.readCellIndex name i = (cells v)[i.toNat]? := by
  subst hvalue
  apply Option.ext
  intro w
  rw [Node.readCellIndex_eq_some_iff, getElem?_cells]
  constructor
  · rintro ⟨q, off, hq, hoff, hw⟩
    obtain rfl := hq.eq hp
    rw [← hoff]
    exact (cellAt_eq_ok_iff hv).1 hw
  · intro hw
    have hle := hw.add_length_le
    have hoff : (UInt64.ofNat (4 * i.toNat)).toNat = 4 * i.toNat :=
      UInt64.toNat_ofNat_of_lt' (Nat.lt_of_le_of_lt (Nat.le_of_add_right_le hle)
        (Nat.lt_trans hv (by decide)))
    refine ⟨p, _, hp, hoff, (cellAt_eq_ok_iff hv).2 ?_⟩
    rwa [hoff]

/-- What is read from a value at any offset, and by any number through any node whose property has
the value. -/
structure ReadsCells (v : Bytes) : Prop where
  cellAt_eq_ok_iff : ∀ off w, cellAt v off = .ok w ↔ v.Holds off.toNat (ofWord32 w)
  exists_cellAt_iff : ∀ off, (∃ w, cellAt v off = .ok w) ↔ off.toNat + 4 ≤ v.length
  cellAt_eq_error : ∀ off : UInt64, v.length < off.toNat + 4 → cellAt v off = .error .badOffset
  exists_doubleCellAt_iff : ∀ off, (∃ w, doubleCellAt v off = .ok w) ↔ off.toNat + 8 ≤ v.length
  doubleCellAt_eq_error : ∀ off : UInt64, v.length < off.toNat + 8 →
    doubleCellAt v off = .error .badOffset
  double : ∀ off w, doubleCellAt v off = .ok w → ∃ next high low, Word.add? off 4 = some next ∧
    cellAt v off = .ok high ∧ cellAt v next = .ok low ∧ w.toNat = high.toNat * 2 ^ 32 + low.toNat
  /-- There is a cell for every number up to some first one without, and for none behind it. -/
  cells : ∃ cells : List UInt32, cells.flatMap ofWord32 = v.take (v.length / 4 * 4) ∧
    ∀ (n : Node) name p, n.HasFirst name p → p.value = v →
      ∀ i : UInt64, n.readCellIndex name i = cells[i.toNat]?

theorem readsCells (hv : v.length < 2 ^ 63) : ReadsCells v := by
  constructor
  case cellAt_eq_ok_iff => exact fun off w => cellAt_eq_ok_iff hv
  case exists_cellAt_iff => exact fun off => exists_cellAt_iff hv
  case cellAt_eq_error => exact fun off => cellAt_eq_error
  case exists_doubleCellAt_iff =>
    intro off
    constructor
    · rintro ⟨w, hw⟩
      by_contra hlt
      rw [doubleCellAt_eq_error (Nat.not_le.1 hlt)] at hw
      contradiction
    · intro h
      obtain ⟨_, _, _, -, -, -, hdouble⟩ := exists_doubleCellAt hv h
      exact ⟨_, hdouble⟩
  case doubleCellAt_eq_error => exact fun off => doubleCellAt_eq_error
  case double =>
    intro off w hw
    have hle : off.toNat + 8 ≤ v.length := by
      by_contra hlt
      rw [doubleCellAt_eq_error (Nat.not_le.1 hlt)] at hw
      contradiction
    obtain ⟨next, high, low, hnext, hhigh, hlow, hdouble⟩ := exists_doubleCellAt hv hle
    obtain rfl := Except.ok.inj (hw.symm.trans hdouble)
    have hlow' := low.toNat_lt
    have hhigh' := high.toNat_lt
    refine ⟨next, high, low, hnext, hhigh, hlow, ?_⟩
    rw [UInt64.toNat_ofNat', Nat.mod_eq_of_lt (by omega)]
  case cells =>
    exact ⟨cells v, flatMap_cells v, fun n name p hp hvalue => readCellIndex_eq hv hp hvalue⟩

end Value

/-! ## Values in trees -/

namespace Token

variable {nameAt : UInt32 → Except Error Bytes} {T : List Token} {k : Nat}

theorem Named.map_snd {listed : List (UInt32 × Bytes)} {properties : List (Bytes × Bytes)}
    (h : Named nameAt listed properties) : properties.map Prod.snd = listed.map Prod.snd := by
  induction h with
  | nil => rfl
  | cons hvalue _ ih => rw [List.map_cons, List.map_cons, ih, hvalue.2]

theorem mem_of_mem_header {nameOffset : UInt32} {value : Bytes}
    (h : (nameOffset, value) ∈ header T k) : Token.property nameOffset value ∈ T := by
  obtain ⟨t, ht, hproperty⟩ := List.mem_filterMap.1 h
  have hmem := List.mem_of_mem_drop ((List.takeWhile_prefix _).subset ht)
  cases t with
  | property _ _ =>
    cases hproperty
    exact hmem
  | _ => contradiction

theorem length_value_le {b : Blob} {nameOffset : UInt32} {value : Bytes}
    (h : Token.property nameOffset value ∈ b.tokens.tokens) : value.length ≤ b.bytes.length := by
  obtain ⟨off, stop, hread⟩ := Reader.exists_read_of_mem h
  have hreading := reading_read b.length_lt_half b.isLegacy off
  have hread : read b.bytes b.isLegacy off = (.ok (some (.property nameOffset value)), stop) :=
    hread
  rw [hread] at hreading
  generalize stop.toNat = n at hreading
  cases hreading with
  | property _ _ _ _ hvalue => exact Nat.le_of_add_left_le hvalue.add_length_le

end Token

/-- The value of a property, unless it is stored in the tree's own block, is one the blob lists. -/
theorem PropertyRecord.value_mem_of_mem_contents {q : PropertyRecord} {path : Bytes}
    {listed : List (Bytes × Bytes)} (hinline : q.isInline = false)
    (h : q.content ∈ contents path listed) : q.value ∈ listed.map Prod.snd := by
  rcases List.mem_append.1 h with h | h
  · obtain ⟨c, hc, heq⟩ := List.mem_map.1 h
    exact List.mem_map.2 ⟨c, hc, congrArg (fun r => r.2.1) heq⟩
  · split at h
    · contradiction
    · have heq := congrArg (fun r => r.2.2) (List.mem_singleton.1 h)
      exact absurd (hinline.symm.trans heq) Bool.false_ne_true

theorem Tree.length_slice (t : Tree) (offset length : UInt32) :
    (t.slice offset length).length = length.toNat := by
  simp [slice]

theorem Build.length_value_lt {b : Blob} {heap : Heap} {t : Tree} {n : Node} {p : Property}
    (h : (build b heap).result = .ok t) (hn : n.tree = t) (hp : p ∈ n.properties) :
    p.value.length < 2 ^ 63 := by
  subst hn
  obtain ⟨q, hq, rfl⟩ := List.mem_map.1 hp
  obtain ⟨k, name, hname, hindex, -⟩ := exists_means_of_node h rfl
  obtain ⟨-, listed, hnamed, hlists⟩ := exists_lists_of_begin h rfl hname hindex
  rw [Property.value]
  cases hinline : q.isInline with
  | true =>
    -- the value is stored behind its record, and half a word tells how long it is
    rw [Tree.read, if_pos hinline, Tree.length_slice]
    exact Nat.lt_trans q.valueLength.toNat_lt (by decide)
  | false =>
    -- the value is a token's
    have hmem : q.content ∈ contents n.record.path listed := hlists ▸ List.mem_map_of_mem hq
    have hvalue := PropertyRecord.value_mem_of_mem_contents hinline hmem
    rw [hnamed.map_snd] at hvalue
    obtain ⟨l, hl, hvalue⟩ := List.mem_map.1 hvalue
    rw [n.tree.read_of_isInline_eq_false hinline, ← hvalue]
    exact Nat.lt_of_le_of_lt (Token.length_value_le (Token.mem_of_mem_header hl)) b.length_lt_half

namespace Value

/-- Cells and double cells are read wherever all their bytes are in the value, and nowhere else; a
double cell is the two cells there. A cell of a given number is the one at four times as many bytes
in the first property of the name. In order, the cells of a value are written as the value, cut
to a multiple of four bytes. All this holds of values of less than half of memory, as the values of
built trees are. -/
theorem cells_exact :
    (∀ v : Bytes, v.length < 2 ^ 63 → ReadsCells v) ∧
    (∀ (n : Node) name i w, n.readCellIndex name i = some w ↔ ∃ (p : Property) (off : UInt64),
      n.HasFirst name p ∧ off.toNat = 4 * i.toNat ∧ cellAt p.value off = .ok w) ∧
    ∀ b heap t n p, (build b heap).result = .ok t → n ∈ t.nodes → p ∈ n.properties →
      p.value.length < 2 ^ 63 := by
  refine ⟨fun v => readsCells, fun n name i w => Node.readCellIndex_eq_some_iff, ?_⟩
  intro b heap t n p h hn hp
  exact Build.length_value_lt h ((Build.mem_nodes_of_build h).1 hn) hp

/-- Four times the second number is the least that is no word. -/
theorem cells_exact_sample :
    ∃ t p, (build .sample (.fresh 0)).result = .ok t ∧ t.root.HasFirst "reg" p ∧
      ReadsCells p.value ∧ t.root.readCellIndex "reg" 0 = some 1 ∧
      t.root.readCellIndex "reg" 0x4000000000000000 = none := by
  have hcheck : ((build .sample (.fresh 0)).result.toOption.map fun t =>
      (t.root.property? "reg").map Property.value) = some (some [0, 0, 0, 1]) := by decide +kernel
  obtain ⟨t, ht, hvalue⟩ := Build.exists_of_result hcheck
  obtain ⟨p, hp, hv⟩ := Option.map_eq_some_iff.1 hvalue
  have hfirst := Node.property?_eq_some_iff.1 hp
  have hmem : p ∈ t.root.properties := List.mem_of_find?_eq_some hp
  obtain ⟨hreads, hindex, hshort⟩ := cells_exact
  have hlt := hshort _ _ t t.root p ht ((Build.mem_nodes_of_build ht).2 rfl) hmem
  refine ⟨t, p, ht, hfirst, hreads p.value hlt, ?_, ?_⟩
  · exact (hindex _ _ _ _).2 ⟨p, 0, hfirst, rfl, by rw [hv]; decide⟩
  · refine Option.eq_none_iff_forall_ne_some.2 fun w hw => ?_
    obtain ⟨_, off, -, hoff, -⟩ := (hindex _ _ _ _).1 hw
    exact absurd off.toNat_lt (by rw [hoff]; decide)

end Value
end Devicetree
