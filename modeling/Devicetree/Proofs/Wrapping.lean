import Devicetree.Proofs.Acceptance
import Devicetree.Proofs.RoundTrip

/-!
# Values out of reach

A record keeps half a word for the offset of the value behind it, and nothing checks that the
offset fits. Where it does not, the value is looked for at the beginning of the block, which is the
root's record. That record holds addresses in the blob. So a tree of 4 GiB can look different
depending on where its blob is.
-/

namespace Devicetree

open Bytes Cursor

namespace PropertyRecord

variable {q : PropertyRecord}

/-- The value behind the record starts where half a word cannot tell. -/
structure Wraps (q : PropertyRecord) : Prop where
  isInline : q.isInline = true
  le : 2 ^ 32 ≤ q.offset.toNat + propertyRecordSize

theorem Wraps.toNat_valueOffset (h : q.Wraps) :
    q.valueOffset.toNat = q.offset.toNat + propertyRecordSize - 2 ^ 32 := by
  have hlt := q.offset.toNat_lt
  have hle := h.le
  rw [valueOffset, UInt32.toNat_ofNat']
  unfold propertyRecordSize at hle ⊢
  omega

end PropertyRecord

namespace Build

variable {a b : Blob} {heap other : Heap} {s t : Tree} {r : NodeRecord} {q : PropertyRecord}
  {i : Nat}

theorem nodeRecordSize_le_start (h : (build b heap).result = .ok t) {x : Segment}
    (hx : x ∈ t.segments) : nodeRecordSize ≤ x.start := by
  obtain ⟨p, hp, hm, -, -, hrecords⟩ := populate_of_build h
  have hdisjoint := (isPacked_of_populate hm hp).disjoint
  obtain ⟨root, rest, hroot⟩ := List.exists_cons_of_ne_nil t.records_ne
  rw [Populating.intervals, ← hrecords, hroot, List.flatMap_cons, NodeRecord.intervals,
    List.cons_append] at hdisjoint
  have hafter := (List.pairwise_cons.1 hdisjoint).1
  rw [Tree.segments, hroot] at hx
  obtain ⟨r, hr, hx⟩ := List.mem_flatMap.1 hx
  rcases List.mem_cons.1 hx with rfl | hx
  · exact Nat.le_add_left _ _
  · obtain ⟨q, hq, hq'⟩ := List.mem_filterMap.1 hx
    have hmem : q.interval ∈ root.properties.map PropertyRecord.interval ++
        rest.flatMap NodeRecord.intervals := by
      rcases List.mem_cons.1 hr with rfl | hr
      · exact List.mem_append_left _ (List.mem_map_of_mem hq)
      · exact List.mem_append_right _ (List.mem_flatMap.2
          ⟨r, hr, List.mem_cons_of_mem _ (List.mem_map_of_mem hq)⟩)
    have hstop := hafter _ hmem
    have hstart := (PropertyRecord.isWithin_of_segment? hq').1
    simp only [Interval.stop, NodeRecord.interval] at hstop
    omega

/-- The bytes of a value out of reach are those of the root's record. -/
theorem getElem?_read_of_wraps (h : (build b heap).result = .ok t) (hwraps : q.Wraps)
    (hi : i < q.valueLength.toNat)
    (hroot : q.offset.toNat + propertyRecordSize - 2 ^ 32 + i < nodeRecordSize) :
    (t.read q)[i]? = some (t.imprint (q.offset.toNat + propertyRecordSize - 2 ^ 32 + i)) := by
  have hnone : t.segments.findSome?
      (·.byte? (q.offset.toNat + propertyRecordSize - 2 ^ 32 + i)) = none := by
    refine List.findSome?_eq_none_iff.2 fun x hx => ?_
    have hle := nodeRecordSize_le_start h hx
    rw [Segment.byte?, if_neg (by omega)]
  rw [Tree.read, if_pos hwraps.isInline, Tree.slice, hwraps.toNat_valueOffset, List.getElem?_map,
    List.getElem?_range hi, Option.map_some, hnone, Option.getD_none]

/-- Where a value is out of reach, the dump of a tree tells what is in the root's record. -/
theorem dump_ne_of_wraps (hs : (build a heap).result = .ok s) (ht : (build b other).result = .ok t)
    (hrecords : s.records = t.records) (hr : r ∈ s.records) (hq : q ∈ r.properties)
    (hwraps : q.Wraps) (hi : i < q.valueLength.toNat)
    (hroot : q.offset.toNat + propertyRecordSize - 2 ^ 32 + i < nodeRecordSize)
    (himprint : s.imprint (q.offset.toNat + propertyRecordSize - 2 ^ 32 + i) ≠
      t.imprint (q.offset.toNat + propertyRecordSize - 2 ^ 32 + i)) : s.dump ≠ t.dump := by
  intro heq
  obtain ⟨j, hj, rfl⟩ := List.mem_iff_getElem.1 hr
  have hj' : j < t.records.length := hrecords ▸ hj
  have hm : s.nodes[j]? = some ⟨s, j, hj⟩ := (getElem?_nodes_of_build hs).2 ⟨rfl, rfl⟩
  have hn : t.nodes[j]? = some ⟨t, j, hj'⟩ := (getElem?_nodes_of_build ht).2 ⟨rfl, rfl⟩
  have hdump : Node.dump ⟨s, j, hj⟩ = Node.dump ⟨t, j, hj'⟩ := by
    have hget := congrArg (·[j]?) heq
    simpa [Tree.dump, hm, hn] using hget
  have hrecord : Node.record ⟨s, j, hj⟩ = Node.record ⟨t, j, hj'⟩ := by
    simp only [Node.record, List.get_eq_getElem, hrecords]
  have hproperties := congrArg Node.Dump.properties hdump
  simp only [Node.dump, Node.properties, List.map_map, ← hrecord] at hproperties
  have hread : s.read q = t.read q := congrArg Prod.snd (List.map_inj_left.1 hproperties q hq)
  have hbyte := congrArg (·[i]?) hread
  simp only [getElem?_read_of_wraps hs hwraps hi hroot,
    getElem?_read_of_wraps ht hwraps hi hroot, Option.some.injEq] at hbyte
  exact himprint hbyte

end Build

/-! ## A blob whose last value is out of reach

Properties for the name of the root, none of which has a value, take 12 bytes each in the blob and
40 in the block. With enough of them, the record of the property that is made for the name of the
only other node starts less than 40 bytes before offsets stop to fit half a word.
-/

namespace Device

def wideName : Bytes := List.replicate 47 0x63

def wide (k : Nat) : Device :=
  .mk [] (List.replicate (k + 1) (nameKey, [])) [.mk wideName [] []]

def emptyProperty : Bytes :=
  ofWord32 Token.propertyTag ++ (ofWord32 0 ++ (ofWord32 0 ++ ([] ++ ([] ++ []))))

/-- How the device is written, without a reservation map and in front of the one name in use. -/
def wideChoices (k : Nat) : Choices where
  version := 17
  structOffset := 40
  stringsOffset := UInt32.ofNat (12 * k + 124)
  tokens := .beginNode [] :: (List.replicate (k + 1) (.property 0 []) ++
    [.beginNode wideName, .endNode, .endNode])
  block := ofWord32 Token.beginNodeTag ++ ([] ++ [0] ++ [0, 0, 0]) ++
    ((List.replicate (k + 1) emptyProperty).flatten ++
    (ofWord32 Token.beginNodeTag ++ (wideName ++ [0] ++ []) ++
    (ofWord32 Token.endNodeTag ++ (ofWord32 Token.endNodeTag ++ []))))

def wideBytes (k : Nat) : Bytes :=
  List.flatMap ofWord32 [magic, UInt32.ofNat (12 * k + 129), 40, UInt32.ofNat (12 * k + 124), 0, 17,
    16, 0, 5, UInt32.ofNat (12 * k + 80)] ++
    ((wideChoices k).block ++ ofWord32 Token.endTag ++ (nameKey ++ [0]))

variable {k : Nat}

theorem length_block_wide (k : Nat) : (wideChoices k).block.length = 12 * k + 80 := by
  have hproperties : (List.replicate (k + 1) emptyProperty).flatten.length = 12 * (k + 1) := by
    rw [List.length_flatten, List.map_replicate, List.sum_replicate_nat,
      show emptyProperty.length = 12 from rfl, Nat.mul_comm]
  simp only [wideChoices, List.length_append, hproperties, length_ofWord32, List.length_nil,
    List.length_cons]
  simp only [wideName, List.length_replicate]
  omega

theorem length_wideBytes (k : Nat) : (wideBytes k).length = 12 * k + 129 := by
  rw [wideBytes, List.length_append, List.length_append, List.length_append, length_block_wide,
    length_flatMap_ofWord32, length_ofWord32, show List.length (nameKey ++ [0]) = 5 from rfl]
  simp only [List.length_cons, List.length_nil]
  omega

theorem written_emptyProperties {off : Nat} {tokens : List Token} {bytes : Bytes}
    (hoff : off % 4 = 0) (count : Nat)
    (h : Token.Written false (off + 12 * count) tokens bytes) :
    Token.Written false off (List.replicate count (.property 0 []) ++ tokens)
      ((List.replicate count emptyProperty).flatten ++ bytes) := by
  induction count generalizing off with
  | zero => exact h
  | succ count ih =>
    have hproperty : Token.Encodes false off (.property 0 []) emptyProperty :=
      .property rfl ⟨by decide, Nat.mod_one _⟩ ⟨by decide, by simpa using by omega⟩
    rw [List.replicate_succ, List.replicate_succ, List.flatten_cons, List.cons_append,
      List.append_assoc]
    refine .cons hproperty (ih ?_ ?_)
    · rw [show emptyProperty.length = 12 from rfl]
      omega
    · rw [show emptyProperty.length = 12 from rfl, Nat.add_assoc, Nat.add_comm 12, ← Nat.mul_succ]
      exact h

theorem written_wide (k : Nat) :
    Token.Written false 40 (wideChoices k).tokens (wideChoices k).block := by
  refine .cons (.beginNode nofun (by simp) ⟨by decide, rfl⟩)
    (written_emptyProperties rfl (k + 1) (.cons (.beginNode (by decide) (by decide) ⟨by decide, ?_⟩)
      (.cons .endNode (.cons .endNode .nil))))
  simp [wideName]
  omega

theorem events_wide (k : Nat) : (wide k).events false none =
    Event.header [] (List.replicate (k + 1) (nameKey, [])) ++
      (Event.header wideName [] ++ [.endNode, .endNode]) := rfl

theorem spelled_wide {names : UInt32 → Bytes → Prop} (hname : names 0 nameKey) (k : Nat) :
    List.Forall₂ (Event.IsSpelled names)
      (((wide k).events false none).filter (· ≠ .endProperties))
      ((wideChoices k).tokens.filter (· ≠ .nop)) := by
  have hproperties : List.Forall₂ (Event.IsSpelled names)
      (List.replicate (k + 1) (.property nameKey []))
      (List.replicate (k + 1) (.property 0 [])) := by
    generalize k + 1 = count
    induction count with
    | zero => exact .nil
    | succ count ih => exact .cons (.property hname) ih
  have hlast : List.Forall₂ (Event.IsSpelled names) [.startNode wideName, .endNode, .endNode]
      [.beginNode wideName, .endNode, .endNode] :=
    .cons .startNode (.cons .endNode (.cons .endNode .nil))
  have hall : List.Forall₂ (Event.IsSpelled names) (.startNode [] :: _) (.beginNode [] :: _) :=
    .cons .startNode (List.rel_append hproperties hlast)
  rw [events_wide]
  simpa [Event.header, wideChoices] using hall

theorem isWritten_wide (hk : 12 * k + 129 < 2 ^ 32) :
    (wide k).IsWritten (wideChoices k) (wideBytes k) := by
  have hlength := length_wideBytes k
  have hsize : UInt32.size = 2 ^ 32 := rfl
  have hstrings : (wideChoices k).stringsOffset.toNat = 12 * k + 124 :=
    UInt32.toNat_ofNat_of_lt' (by omega)
  have hstruct : (wideChoices k).structOffset.toNat = 40 := rfl
  constructor
  case headerSize_le =>
    rw [hlength]
    unfold headerSize
    omega
  case holds_magic => exact holds_flatMap_ofWord32 (n := 0) rfl _
  case holds_totalSize =>
    refine ⟨UInt32.ofNat (12 * k + 129), ?_, holds_flatMap_ofWord32 (n := 1) rfl _⟩
    rw [hlength]
    exact UInt32.toNat_ofNat_of_lt' hk
  case holds_structOffset => exact holds_flatMap_ofWord32 (n := 2) rfl _
  case holds_stringsOffset => exact holds_flatMap_ofWord32 (n := 3) rfl _
  case holds_version => exact holds_flatMap_ofWord32 (n := 5) rfl _
  case structOffset_mod => rw [hstruct]
  case stringsOffset_le => omega
  case holds_block =>
    exact ⟨_, nameKey ++ [0], (List.append_assoc _ _ _).symm, length_flatMap_ofWord32 _⟩
  case written => exact written_wide k
  case spelled =>
    refine spelled_wide ⟨by decide, ?_⟩ k
    have hend := List.append_nil (wideBytes k)
    rw [wideBytes, ← List.append_assoc] at hend
    refine ⟨_, [], hend.symm, ?_⟩
    have hbefore := hlength
    rw [wideBytes, ← List.append_assoc, List.length_append,
      show List.length (nameKey ++ [0]) = 5 from rfl] at hbefore
    rw [hstrings]
    exact Nat.add_right_cancel hbefore

/-- The lengths of all records but the last one. -/
def wideLengths (k : Nat) : List Nat := 113 :: (List.replicate (k + 1) 40 ++ [160])

def widePath : Bytes := Path.slash :: wideName

theorem demands_wide (k : Nat) :
    Draft.start.demands ((wide k).events false none) = wideLengths k ++ [88] := by
  have hroot : Path.join Draft.start.path? [] = Path.root := rfl
  have hjoin : Path.join (some Path.root) wideName = widePath := rfl
  have hpath := Draft.path?_run_header .start [] (List.replicate (k + 1) (nameKey, []))
  have hname : nameKey ∈ (List.replicate (k + 1) (nameKey, ([] : Bytes))).map Prod.fst := by simp
  have hlength : widePath.length = 48 := rfl
  have hshort : (Path.shortName widePath).length = 47 := by decide +kernel
  have hends : ∀ d : Draft, d.demands [.endNode, .endNode] = [] := fun _ => rfl
  rw [events_wide, Draft.demands_append, Draft.demands_header, Draft.demands_append,
    Draft.demands_header, hpath, hends, hroot, hjoin, if_pos hname, hlength, hshort]
  simp [wideLengths, nodeRecordSize, propertyRecordSize, Path.root]

theorem placeEnd_wideLengths (k : Nat) : Cursor.placeEnd 0 (wideLengths k) = 320 + 40 * k := by
  have hfirst : Cursor.placeEnd 0 (113 :: List.replicate (k + 1) 40) = 160 + 40 * k :=
    Cursor.placeEnd_replicate rfl rfl k
  rw [wideLengths, ← List.cons_append, Cursor.placeEnd_append, hfirst, Cursor.placeEnd,
    Cursor.placeEnd, recordStart]
  omega

theorem nodes_wide (k : Nat) : ∃ n, (Draft.start.run ((wide k).events false none)).nodes =
    [n, ⟨widePath, some 0, [(nameKey, wideName ++ [0])]⟩] := by
  have hroot : Path.join Draft.start.path? [] = Path.root := rfl
  have hjoin : Path.join (some Path.root) wideName = widePath := rfl
  have hname : withName widePath [] = [(nameKey, wideName ++ [0])] := by decide +kernel
  have hpath := Draft.path?_run_header .start [] (List.replicate (k + 1) (nameKey, []))
  have hends : ∀ d : Draft, (d.run [.endNode, .endNode]).nodes = d.nodes := fun _ => rfl
  obtain ⟨hnodes, hcurrent⟩ :=
    Draft.run_header .start [] (List.replicate (k + 1) (nameKey, []))
  obtain ⟨hall, -⟩ := Draft.run_header
    (Draft.start.run (Event.header [] (List.replicate (k + 1) (nameKey, [])))) wideName []
  rw [hpath, hroot, hjoin, hcurrent, hnodes, hname] at hall
  rw [events_wide, Draft.run_append, Draft.run_append, hends, hall]
  exact ⟨_, rfl⟩

/-- Memory where a record at the beginning keeps the address of the value that is at the given
offset in the blob. -/
def addressHeap (valueOffset : Nat) : Heap :=
  { Heap.fresh 0 with
    imprint := fun b _ i => if i = 56 then UInt8.ofNat (b.address + valueOffset) else 0 }

end Device

namespace Build

variable {k : Nat}

theorem exists_records_of_wide (h : (build b heap).result = .ok t)
    (hevents : b.outline.events = (Device.wide k).events false none) :
    ∃ root r q, t.records = [root, r] ∧ r.properties = [q] ∧ q.value.length = 48 := by
  obtain ⟨n, hnodes⟩ := Device.nodes_wide k
  obtain ⟨hdraft, -, -⟩ := draft_of_build h
  rw [hevents, hnodes] at hdraft
  obtain ⟨root, rest, hrecords, rfl, hrest⟩ := List.map_eq_cons_iff.1 hdraft
  obtain ⟨r, rest, rfl, hr, hrest⟩ := List.map_eq_cons_iff.1 hrest
  obtain rfl := List.map_eq_nil_iff.1 hrest
  obtain ⟨q, rest, hproperties, hq, hrest⟩ :=
    List.map_eq_cons_iff.1 (congrArg DraftNode.properties hr)
  obtain rfl := List.map_eq_nil_iff.1 hrest
  refine ⟨root, r, q, hrecords, hproperties, ?_⟩
  rw [show q.value = Device.wideName ++ [0] from congrArg Prod.snd hq]
  rfl

/-- The last record starts where offsets still fit half a word, but the value in it does not. -/
theorem exists_wraps_of_wide (h : (build b heap).result = .ok t)
    (hevents : b.outline.events = (Device.wide k).events false none)
    (hk : 40 * k + 336 = 2 ^ 32) :
    ∃ r ∈ t.records, ∃ q ∈ r.properties, q.Wraps ∧ q.offset.toNat = 2 ^ 32 - 16 ∧
      q.valueLength.toNat = 48 := by
  obtain ⟨root, r, q, hrecords, hproperties, hlength⟩ := exists_records_of_wide h hevents
  obtain ⟨p, hp, -, -, -, hpopulated⟩ := populate_of_build h
  obtain ⟨hlengths, hplaced, -⟩ := isPlaced_of_populate hp
  have hintervals : p.intervals = (root.intervals ++ [r.interval]) ++ [q.interval] := by
    rw [Populating.intervals, ← hpopulated, hrecords]
    simp [NodeRecord.intervals, hproperties]
  rw [hintervals] at hlengths hplaced
  rw [hevents, Device.demands_wide, List.map_append, List.map_singleton] at hlengths
  obtain ⟨hbefore, hlast⟩ := List.append_inj' hlengths rfl
  have hoffset := hplaced.offset_concat
  rw [hbefore, Device.placeEnd_wideLengths, recordStart] at hoffset
  -- a record of 88 bytes is longer than one whose value is in the blob
  have hinline : q.isInline = true := by
    by_contra hborrowed
    simp [PropertyRecord.interval, hborrowed, propertyRecordSize] at hlast
  have hstart : q.offset.toNat = 2 ^ 32 - 16 := by
    rw [show q.offset = q.interval.offset from rfl, hoffset]
    omega
  refine ⟨r, by simp [hrecords], q, by simp [hproperties], ⟨hinline, ?_⟩, hstart, ?_⟩
  · rw [hstart]
    decide
  · rw [PropertyRecord.valueLength, hlength]
    rfl

theorem exists_build_of_wide {heap : Heap}
    (houtline : b.outline = ⟨(Device.wide k).events false none, .complete⟩)
    (hk : 40 * k + 336 = 2 ^ 32) (hgrants : ∀ i, heap.grants i = true) :
    ∃ t, (build b heap).result = .ok t := by
  have hend := Device.placeEnd_wideLengths k
  have hstarts : ∀ s ∈ b.recordStarts, s < 2 ^ 32 := by
    intro s hs
    rw [Blob.recordStarts, houtline, Device.demands_wide, placeStarts_append] at hs
    rcases List.mem_append.1 hs with hs | hs
    · have hle := le_placeEnd_of_mem_placeStarts hs
      omega
    · rw [List.mem_singleton.1 hs, hend, recordStart]
      omega
  obtain ⟨t, -, ht, -⟩ := (build_of_grants hstarts hgrants).1 (congrArg Outline.ending houtline)
  exact ⟨t, ht⟩

/-- Copies of the blob at different addresses look different: where the name is looked for, the
root's record has the address of a value in the copy. -/
theorem dump_ne_of_wide (hk : 40 * k + 336 = 2 ^ 32) :
    ∃ a b s t, Blob.ofBuffer ⟨0x1000, Device.wideBytes k⟩ = .ok a ∧
      Blob.ofBuffer ⟨0x1008, Device.wideBytes k⟩ = .ok b ∧ a.resolved = b.resolved ∧
      (build a (Device.addressHeap (12 * k + 60))).result = .ok s ∧
      (build b (Device.addressHeap (12 * k + 60))).result = .ok t ∧ s.dump ≠ t.dump := by
  have hwritten := Device.isWritten_wide (k := k) (by omega)
  obtain ⟨b, hb, hbytes⟩ : ∃ b, Blob.ofBuffer ⟨0x1000, Device.wideBytes k ++ []⟩ = .ok b ∧
      b.bytes = Device.wideBytes k := hwritten.ofBuffer [] rfl
  have hmoved : ∀ address, address % 4 = 0 →
      Blob.ofBuffer ⟨address, Device.wideBytes k⟩ = .ok (b.movedTo address) := by
    intro address haddress
    have hcopy := Blob.ofBuffer_append hb [] haddress
    rwa [List.append_nil, List.append_nil] at hcopy
  have hreads : (b.movedTo 0x1000).ReadsAs (b.movedTo 0x1008) := Blob.readsAs_of_bytes_eq rfl
  have houtline := hwritten.outline (b := b.movedTo 0x1008) hbytes
  let heap := Device.addressHeap (12 * k + 60)
  have hgrants : ∀ i, heap.grants i = true := fun _ => rfl
  obtain ⟨t, ht⟩ := exists_build_of_wide houtline hk hgrants
  have hs : (build (b.movedTo 0x1000) heap).result =
      .ok (t.withBlob heap.imprint (b.movedTo 0x1000)) := by
    rw [hreads.build, Outcome.withBlob, ht]
    rfl
  obtain ⟨-, -, hblob⟩ := draft_of_build ht
  obtain ⟨r, hr, q, hq, hwraps, hstart, hlength⟩ :=
    exists_wraps_of_wide ht (congrArg Outline.events houtline) hk
  -- byte 32 of the value is looked for where the root's record has the address
  have hbyte : q.offset.toNat + propertyRecordSize - 2 ^ 32 + 32 = 56 := by
    rw [hstart]
    rfl
  have hdiffers : heap.imprint (b.movedTo 0x1000) t.records 56 ≠
      heap.imprint (b.movedTo 0x1008) t.records 56 := by
    change UInt8.ofNat (0x1000 + (12 * k + 60)) ≠ UInt8.ofNat (0x1008 + (12 * k + 60))
    rw [Ne, ← UInt8.toNat_inj, UInt8.toNat_ofNat', UInt8.toNat_ofNat']
    omega
  refine ⟨_, _, _, t, hmoved 0x1000 rfl, hmoved 0x1008 rfl, ?_, hs, ht,
    dump_ne_of_wraps (i := 32) hs ht rfl hr hq hwraps ?_ ?_ ?_⟩
  · simp only [Blob.resolved, hreads.tokens, hreads.stringAt]
  · omega
  · rw [hbyte]
    decide
  · rw [hbyte, imprint_of_build ht, hblob]
    exact hdiffers

/-- Two blobs with the same tokens, built on one heap into trees that look different. -/
theorem exists_dump_ne_of_resolved_eq :
    ∃ a b s t, Blob.ofBuffer ⟨0x1000, Device.wideBytes 107374174⟩ = .ok a ∧
      Blob.ofBuffer ⟨0x1008, Device.wideBytes 107374174⟩ = .ok b ∧ a.resolved = b.resolved ∧
      (build a (Device.addressHeap 1288490148)).result = .ok s ∧
      (build b (Device.addressHeap 1288490148)).result = .ok t ∧ s.dump ≠ t.dump :=
  dump_ne_of_wide rfl

end Build
end Devicetree
