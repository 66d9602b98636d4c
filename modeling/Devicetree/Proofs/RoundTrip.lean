import Devicetree.Proofs.Assembly
import Devicetree.Proofs.Grammar
import Devicetree.Proofs.Headers
import Devicetree.Proofs.Packing
import Devicetree.Proofs.Records
import Devicetree.Proofs.Relatives

/-!
# Round trips

A device that is written into a blob, in either format and with whatever the format leaves open,
is built into a tree that shows the same device again.
-/

namespace Devicetree

open Bytes

/-- What the format leaves to whoever writes a blob. -/
structure Choices where
  version : UInt32
  structOffset : UInt32
  stringsOffset : UInt32
  tokens : List Token
  block : Bytes

namespace Choices

def isLegacy (c : Choices) : Bool := c.version < Blob.firstModernVersion

/-- The offset stands for the name in the block of names. -/
def NamesAt (c : Choices) (bytes : Bytes) (nameOffset : UInt32) (name : Bytes) : Prop :=
  0 ∉ name ∧ bytes.Holds (c.stringsOffset.toNat + nameOffset.toNat) (name ++ [0])

end Choices

/-- The bytes are a blob that holds the device. Padding tokens may stand anywhere, and what no
field tells may be anything. -/
structure Device.IsWritten (d : Device) (c : Choices) (bytes : Bytes) : Prop where
  headerSize_le : headerSize ≤ bytes.length
  holds_magic : bytes.Holds 0 (ofWord32 magic)
  holds_totalSize : ∃ size : UInt32, size.toNat = bytes.length ∧ bytes.Holds 4 (ofWord32 size)
  holds_structOffset : bytes.Holds 8 (ofWord32 c.structOffset)
  holds_stringsOffset : bytes.Holds 12 (ofWord32 c.stringsOffset)
  holds_version : bytes.Holds 20 (ofWord32 c.version)
  structOffset_mod : c.structOffset.toNat % 4 = 0
  stringsOffset_le : c.stringsOffset.toNat ≤ bytes.length
  holds_block : bytes.Holds c.structOffset.toNat (c.block ++ ofWord32 Token.endTag)
  written : Token.Written c.isLegacy c.structOffset.toNat c.tokens c.block
  spelled : List.Forall₂ (Event.IsSpelled (c.NamesAt bytes))
    ((d.events c.isLegacy none).filter (· ≠ .endProperties)) (c.tokens.filter (· ≠ .nop))

/-- The node looks like one of a device that has the given path and properties. -/
structure Node.Shows (path : Bytes) (properties : List (Bytes × Bytes)) (n : Node) : Prop where
  pathBytes : n.pathBytes = path
  map_properties : n.properties.map (fun p => (p.record.name, p.value)) =
    if nameKey ∈ properties.map Prod.fst then properties
    else properties ++ [(nameKey, Path.shortName path ++ [0])]
  nameBytes : n.nameBytes = (valueOf nameKey properties).elim (Path.shortName path) Bytes.trimNul
  typeBytes : n.typeBytes = (valueOf deviceTypeKey properties).elim nullName Bytes.trimNul
  phandle : n.phandle = (valueOf phandleKey properties).bind (Bytes.word32? · 0)
  parent : ∀ c ∈ n.children, c.parent = some n

namespace Device

variable {d : Device} {c : Choices} {bytes : Bytes} {address : Nat} {b : Blob}

theorem IsWritten.length_lt (h : d.IsWritten c bytes) : bytes.length < 2 ^ 32 := by
  obtain ⟨size, hsize, -⟩ := h.holds_totalSize
  rw [← hsize]
  exact size.toNat_lt

theorem headerWord_of_holds {n : Nat} {off : UInt64} {w : UInt32} (hb : b.bytes = bytes)
    (h : bytes.Holds n (ofWord32 w)) (hoff : off.toNat = n) : b.headerWord off = w := by
  subst hb
  rw [Blob.headerWord, h.word32? b.length_lt_half hoff, Option.getD_some]

theorem IsWritten.ofBuffer (h : d.IsWritten c bytes) (behind : Bytes)
    (haddress : address % 4 = 0) :
    ∃ b, Blob.ofBuffer ⟨address, bytes ++ behind⟩ = .ok b ∧ b.bytes = bytes := by
  obtain ⟨size, hsize, hholds⟩ := h.holds_totalSize
  have hblock := h.holds_block.add_length_le
  rw [List.length_append, length_ofWord32, ← hsize] at hblock
  have hblob : bytes.HoldsBlob size := by
    constructor
    case totalSize => exact hholds
    case headerSize_le => exact hsize ▸ h.headerSize_le
    case le_length => exact Nat.le_of_eq hsize
    case structOffset => exact ⟨_, h.holds_structOffset, h.structOffset_mod, by omega⟩
    case stringsOffset => exact ⟨_, h.holds_stringsOffset, hsize ▸ h.stringsOffset_le⟩
  refine ⟨⟨address, bytes, h.headerSize_le, h.length_lt⟩, Blob.ofBuffer_eq_iff.2 ?_, rfl⟩
  refine .blob (h.holds_magic.append_bytes behind) haddress (hblob.append behind) rfl ?_
  rw [hsize, List.take_left]

theorem IsWritten.stringAt (h : d.IsWritten c bytes) (hb : b.bytes = bytes) {off : UInt32}
    {name : Bytes} (hname : c.NamesAt bytes off name) : b.stringAt off.toUInt64 = .ok name := by
  have hstrings : b.stringsOffset = c.stringsOffset :=
    headerWord_of_holds hb h.holds_stringsOffset rfl
  have hoff := off.toNat_lt
  have hstart := c.stringsOffset.toNat_lt
  have hadd : Word.add? c.stringsOffset.toUInt64 off.toUInt64 =
      some (c.stringsOffset.toUInt64 + off.toUInt64) := by
    have hsize : UInt64.size = 2 ^ 64 := rfl
    unfold Word.add?
    rw [if_pos]
    simp only [UInt32.toNat_toUInt64]
    omega
  have hsum := Word.toNat_of_add? hadd
  simp only [UInt32.toNat_toUInt64] at hsum
  unfold Blob.stringAt
  rw [hstrings, hadd, Option.bind_some, hb, hname.2.string? hname.1 hsum]

theorem IsWritten.outline (h : d.IsWritten c bytes) (hb : b.bytes = bytes) :
    b.outline = ⟨d.events c.isLegacy none, .complete⟩ := by
  have hlegacy : b.isLegacy = c.isLegacy := by
    have hversion : b.version = c.version := headerWord_of_holds hb h.holds_version rfl
    rw [Blob.isLegacy, hversion, Choices.isLegacy]
  have htokens : b.tokens = ⟨c.tokens, .ok ()⟩ := by
    have hstart : b.structOffset = c.structOffset := headerWord_of_holds hb h.holds_structOffset rfl
    have hoff : (Token.Reader.ofBlob b).offset.toNat = c.structOffset.toNat := by
      rw [← hstart]
      exact UInt32.toNat_toUInt64 _
    exact h.written.stream (r := .ofBlob b) hlegacy h.structOffset_mod (hb ▸ h.holds_block) hoff
  have hnames : ∀ off name, c.NamesAt bytes off name → b.stringAt off.toUInt64 = .ok name :=
    fun off name => h.stringAt hb
  unfold Blob.outline
  rw [htokens]
  dsimp only
  rw [← Outline.ofTokens_filter]
  exact Outline.ofTokens_of_isSpelled (d.completes c.isLegacy) h.spelled hnames

end Device

/-! ## Reading a device back -/

theorem nodup_withName (path : Bytes) {properties : List (Bytes × Bytes)}
    (h : (properties.map Prod.fst).Nodup) : ((withName path properties).map Prod.fst).Nodup := by
  unfold withName
  split
  · exact h
  · rename_i hname
    rw [List.map_append, List.map_singleton, ← List.concat_eq_append]
    exact h.concat hname

theorem valueOf_withName (key path : Bytes) (properties : List (Bytes × Bytes)) :
    valueOf key (withName path properties) = (valueOf key properties).or
      (if key = nameKey then some (Path.shortName path ++ [0]) else none) := by
  unfold withName
  split
  · rename_i hname
    split
    · rename_i hkey
      have hsome : valueOf key properties ≠ none := by
        rw [Ne, valueOf_eq_none_iff, hkey]
        exact not_not_intro hname
      cases hvalue : valueOf key properties with
      | none => exact absurd hvalue hsome
      | some value => rfl
    · rw [Option.or_none]
  · rw [valueOf_append, valueOf_cons]
    simp [valueOf, eq_comm]

theorem trimNul_concat (name : Bytes) : trimNul (name ++ [0]) = name := by
  unfold trimNul
  rw [List.getLast?_concat, if_pos rfl, List.dropLast_concat]

namespace Node

variable {n : Node} {path : Bytes} {properties : List (Bytes × Bytes)}

theorem nameValue_eq (hkept : n.record.IsKept) (hread : n.tree.ReadsBack) :
    n.nameValue = (valueOf nameKey n.record.draft.properties.reverse).getD nullName := by
  rw [nameValue, hkept.name, NodeRecord.valueOf_draft]
  refine congrArg (Option.getD · nullName) (Option.map_congr fun q hq => ?_)
  exact hread _ (List.get_mem _ _) q (hkept.mem_of_name (hkept.name.trans hq))

theorem map_properties_eq (hread : n.tree.ReadsBack) :
    n.properties.map (fun p => (p.record.name, p.value)) = n.record.draft.properties := by
  rw [properties, List.map_map]
  refine List.map_congr_left fun q hq => ?_
  exact congrArg (Prod.mk q.name) (hread _ (List.get_mem _ _) q hq)

theorem shows_of_draft (hkept : n.record.IsKept) (hread : n.tree.ReadsBack)
    (hpath : n.record.draft.path = path)
    (hproperties : n.record.draft.properties = withName path properties)
    (hnodup : (properties.map Prod.fst).Nodup) (hparent : ∀ c ∈ n.children, c.parent = some n) :
    n.Shows path properties := by
  have hvalue : ∀ key, valueOf key n.record.draft.properties.reverse =
      (valueOf key properties).or
        (if key = nameKey then some (Path.shortName path ++ [0]) else none) := by
    intro key
    rw [hproperties, valueOf_reverse key (nodup_withName path hnodup), valueOf_withName]
  have htype : deviceTypeKey ≠ nameKey := by decide
  have hhandle : phandleKey ≠ nameKey := by decide
  constructor
  case pathBytes => exact hpath
  case map_properties => exact (map_properties_eq hread).trans hproperties
  case nameBytes =>
    rw [nameBytes, nameValue_eq hkept hread, hvalue, if_pos rfl]
    cases valueOf nameKey properties with
    | none => exact trimNul_concat _
    | some value => rfl
  case typeBytes =>
    rw [typeBytes, hkept.deviceType, hvalue, if_neg htype, Option.or_none]
    cases valueOf deviceTypeKey properties with
    | none => rfl
    | some value => rfl
  case phandle => rw [phandle, hkept.phandle, hvalue, if_neg hhandle, Option.or_none]
  case parent => exact hparent

end Node

/-- Positions among the children are the same in the draft and in the links. -/
theorem Draft.childrenOf_draft (t : Tree) (owner : Option Nat) :
    childrenOf (t.records.map NodeRecord.draft) owner =
      (List.range t.records.length).filter fun c => parentAt t.links c = owner := by
  unfold childrenOf parentAt Tree.links
  rw [List.length_map]
  apply List.filter_congr
  intro c _
  rw [List.getElem?_map, List.getElem?_map]
  cases t.records[c]? <;> rfl

theorem Tree.forall₂_nodesAt {t : Tree} {m : List Nat} (hm : ∀ i ∈ m, i < t.records.length) :
    List.Forall₂ (fun i n => t.node? i = some n) m (t.nodesAt m) := by
  induction m with
  | nil => exact .nil
  | cons i m ih =>
    have hi : t.node? i = some ⟨t, i, hm i List.mem_cons_self⟩ := node?_eq_some_iff.2 ⟨rfl, rfl⟩
    have htail := ih fun j hj => hm j (List.mem_cons_of_mem _ hj)
    unfold nodesAt
    rw [List.filterMap_cons_some hi]
    exact .cons hi htail

theorem Tree.filter_isNone_parent_eq {t : Tree} (h : Linked t.links)
    (hzero : Draft.childrenOf (t.records.map NodeRecord.draft) none = [0]) :
    t.nodes.filter (fun n => n.parent.isNone) = [t.root] := by
  have hroot : t.node? 0 = some t.root := node?_eq_some_iff.2 ⟨rfl, rfl⟩
  rw [Draft.childrenOf_draft] at hzero
  rw [nodes_eq_places h, filter_isNone_parent h, hzero]
  exact List.filterMap_cons_some hroot

/-- The tree is the device. Its nodes are met in the order of a walk from the root, which shows
the device itself, and there are no others. -/
structure Tree.Shows (d : Device) (t : Tree) : Prop where
  parent : t.root.parent = none
  root : d.Matches Node.Shows Node.children none t.root
  walks : Walks Node.children [t.root] t.nodes
  length_nodes : t.nodes.length = t.nodeCount

namespace Build

theorem shows_of_isDrafted {b : Blob} {heap : Heap} {t : Tree} {n : Node} {start : Nat}
    {path : Bytes} {properties : List (Bytes × Bytes)} (h : (build b heap).result = .ok t)
    (hread : t.ReadsBack) (hn : n.tree = t)
    (hd : Draft.IsDrafted (t.records.map NodeRecord.draft) start path properties n.index) :
    n.Shows path properties := by
  subst hn
  obtain ⟨hlinked, -, -⟩ := linked_of_build h
  obtain ⟨-, m, hm, hpath, hproperties, hnodup⟩ := hd
  obtain rfl := Option.some.inj ((getElem?_draft_index rfl rfl).symm.trans hm)
  have hkept : n.record.IsKept := isKept_of_build h n.record (List.getElem_mem n.index_lt)
  apply Node.shows_of_draft hkept hread hpath hproperties hnodup
  intro c hc
  exact (Node.mem_children_iff hlinked).1 hc

theorem forall₂_children {t : Tree} {n : Node} (h : Linked t.links) (hn : n.tree = t) :
    List.Forall₂ (fun i n => t.node? i = some n)
      (Draft.childrenOf (t.records.map NodeRecord.draft) (some n.index)) n.children := by
  rw [Node.children_eq h hn, Draft.childrenOf_draft, ← Tree.length_links]
  apply Tree.forall₂_nodesAt
  intro i hi
  rw [← Tree.length_links]
  exact lt_of_parentAt (mem_childrenAt.1 hi)

theorem shows_of_build {b : Blob} {heap : Heap} {t : Tree} {d : Device} {legacy : Bool}
    (h : (build b heap).result = .ok t) (hread : t.ReadsBack) (hvalid : d.Valid)
    (hevents : b.outline.events = d.events legacy none) : t.Shows d := by
  obtain ⟨hlinked, hpre, hcount⟩ := linked_of_build h
  obtain ⟨hdraft, -, -⟩ := draft_of_build h
  have hwell := Tree.wellLinked hlinked hpre hcount
  have hadds : Draft.start.Adds (Draft.start.run (d.events legacy none)) none [0] [d] :=
    Draft.adds_events legacy d hvalid Draft.closed_start rfl nofun
  rw [← hevents] at hadds
  obtain ⟨-, -, hchildren, hmatches⟩ := hadds
  rw [← hdraft] at hchildren hmatches
  have hroots := Tree.filter_isNone_parent_eq hlinked (hchildren none nofun)
  obtain ⟨a, rest, heq, hroot, -⟩ := hmatches
  obtain ⟨rfl, -⟩ := List.cons.inj heq
  constructor
  case parent =>
    have hmem : t.root ∈ t.nodes.filter fun n => n.parent.isNone :=
      hroots ▸ List.mem_singleton_self t.root
    exact Option.isNone_iff_eq_none.1 (List.mem_filter.1 hmem).2
  case root =>
    have hzero : t.node? 0 = some t.root := Tree.node?_eq_some_iff.2 ⟨rfl, rfl⟩
    apply hroot.imp (R := fun i n => t.node? i = some n) _ d hzero
    intro path properties i n hi hdrafted
    obtain ⟨hn, rfl⟩ := Tree.node?_eq_some_iff.1 hi
    exact ⟨shows_of_isDrafted h hread hn hdrafted, forall₂_children hlinked hn⟩
  case walks => exact hroots ▸ hwell.walks
  case length_nodes => exact hwell.length_nodes

theorem exists_build {b : Blob} {heap : Heap} (hending : b.outline.ending = .complete)
    (hend : Cursor.placeEnd 0 (Draft.start.demands b.outline.events) < 2 ^ 32)
    (hgrants : ∀ i, heap.grants i = true) : ∃ t, (build b heap).result = .ok t := by
  have hstarts : ∀ s ∈ b.recordStarts, s < 2 ^ 32 := fun s hs =>
    Nat.lt_of_le_of_lt (Cursor.le_placeEnd_of_mem_placeStarts hs) hend
  obtain ⟨t, -, ht, -⟩ := (build_of_grants hstarts hgrants).1 hending
  exact ⟨t, ht⟩

end Build

namespace Device

/-- A device that is written into a blob is read back from it, whatever stands behind the blob and
however it was written, as long as its records take less than half a word can count. -/
theorem shows_of_isWritten {d : Device} {c : Choices} {bytes : Bytes} {heap : Heap}
    (behind : Bytes) (address : Nat) (hvalid : d.Valid) (hwritten : d.IsWritten c bytes)
    (haddress : address % 4 = 0) (hsize : Cursor.placeEnd 0 (d.lengths none) < 2 ^ 32)
    (hgrants : ∀ i, heap.grants i = true) :
    ∃ b t, Blob.ofBuffer ⟨address, bytes ++ behind⟩ = .ok b ∧ (build b heap).result = .ok t ∧
      t.Shows d := by
  obtain ⟨b, hb, hbytes⟩ := hwritten.ofBuffer behind haddress
  have houtline := hwritten.outline hbytes
  have hevents : b.outline.events = d.events c.isLegacy none := congrArg Outline.events houtline
  have hdemands : Draft.start.demands (d.events c.isLegacy none) = d.lengths none :=
    Draft.demands_events c.isLegacy d hvalid Draft.closed_start rfl nofun
  have hend : Cursor.placeEnd 0 (Draft.start.demands b.outline.events) < 2 ^ 32 := by
    rw [hevents, hdemands]
    exact hsize
  obtain ⟨t, ht⟩ := Build.exists_build (congrArg Outline.ending houtline) hend hgrants
  have hread := Build.readsBack_of_placeEnd ht hend
  exact ⟨b, t, hb, ht, Build.shows_of_build ht hread hvalid hevents⟩

def sample : Device := .mk [] [(phandleKey, [0, 0, 0, 7])] [.mk [0x61] [] []]

/-- The sample in the modern format, with a padding token between its nodes. -/
def sampleChoices : Choices where
  version := 17
  structOffset := 40
  stringsOffset := 88
  tokens := [.beginNode [], .property 0 [0, 0, 0, 7], .nop, .beginNode [0x61], .endNode, .endNode]
  block := ofWord32 Token.beginNodeTag ++ ([] ++ [0] ++ [0, 0, 0]) ++
    (ofWord32 Token.propertyTag ++
      (ofWord32 4 ++ (ofWord32 0 ++ ([] ++ ([0, 0, 0, 7] ++ [])))) ++
    (ofWord32 Token.nopTag ++ (ofWord32 Token.beginNodeTag ++ ([0x61] ++ [0] ++ [0, 0]) ++
    (ofWord32 Token.endNodeTag ++ (ofWord32 Token.endNodeTag ++ [])))))

def sampleBytes : Bytes :=
  List.flatMap ofWord32 [magic, 96, 40, 88, 40, 17, 16, 0, 8, 48] ++
    sampleChoices.block ++ ofWord32 Token.endTag ++ (phandleKey ++ [0])

theorem valid_sample : sample.Valid := by
  have hchild : Valid (.mk [0x61] [] []) := .mk (by decide) (by simp) (by simp)
  exact .mk nofun (by simp) (by simpa using hchild)

theorem isWritten_sample : sample.IsWritten sampleChoices sampleBytes where
  headerSize_le := by decide +kernel
  holds_magic := .of_take_drop (by decide +kernel) (by decide +kernel)
  holds_totalSize := ⟨96, by decide +kernel, .of_take_drop (by decide +kernel) (by decide +kernel)⟩
  holds_structOffset := .of_take_drop (by decide +kernel) (by decide +kernel)
  holds_stringsOffset := .of_take_drop (by decide +kernel) (by decide +kernel)
  holds_version := .of_take_drop (by decide +kernel) (by decide +kernel)
  structOffset_mod := rfl
  stringsOffset_le := by decide +kernel
  holds_block := .of_take_drop (by decide +kernel) (by decide +kernel)
  written := .cons (.beginNode nofun (by simp) ⟨by decide, rfl⟩)
    (.cons (.property rfl ⟨by decide, rfl⟩ ⟨by decide, rfl⟩)
    (.cons .nop (.cons (.beginNode (by decide) (by simp) ⟨by decide, rfl⟩)
    (.cons .endNode (.cons .endNode .nil)))))
  spelled := .cons .startNode
    (.cons (.property ⟨by decide, .of_take_drop (by decide +kernel) (by decide +kernel)⟩)
    (.cons .startNode (.cons .endNode (.cons .endNode .nil))))

theorem shows_of_isWritten_sample :
    sample.Valid ∧ sample.IsWritten sampleChoices sampleBytes ∧
      ∃ b t, Blob.ofBuffer ⟨0x1000, sampleBytes ++ [1]⟩ = .ok b ∧
        (build b (.fresh 0)).result = .ok t ∧ t.Shows sample :=
  ⟨valid_sample, isWritten_sample, shows_of_isWritten [1] 0x1000 valid_sample isWritten_sample rfl
    (by decide +kernel) fun _ => rfl⟩

end Device
end Devicetree
