import Devicetree.Heap
import Devicetree.Value

/-!
# Trees

A tree is the records of its nodes, in a block of their size. A node is the position of a record;
it finds its relatives, and the node after it in document order, by the links in its record. A
value behind a record is read from the block, where the record says it is. Trees are told apart by
their blocks.
-/

namespace Devicetree

structure Tree where
  blob : Blob
  block : Block
  /-- The bytes that the records take, without the mark behind them. -/
  size : Nat
  nodeCount : Nat
  records : List NodeRecord
  records_ne : records ≠ []
  /-- The byte at each offset of the block that is neither a path's nor a value's. -/
  imprint : Nat → UInt8

structure Node where
  tree : Tree
  index : Nat
  index_lt : index < tree.records.length

structure Property where
  node : Node
  record : PropertyRecord

namespace Tree

def node? (t : Tree) (i : Nat) : Option Node :=
  if h : i < t.records.length then some ⟨t, i, h⟩ else none

def root (t : Tree) : Node := ⟨t, 0, List.length_pos_iff.2 t.records_ne⟩

/-- The nodes in the order of their records. -/
def places (t : Tree) : List Node :=
  (List.finRange t.records.length).map fun (i : Fin _) => ⟨t, i, i.isLt⟩

/-- Whether the two are one tree, and not only alike. -/
def isSame (s t : Tree) : Bool := s.block = t.block

def segments (t : Tree) : List Segment := t.records.flatMap NodeRecord.segments

def slice (t : Tree) (offset length : UInt32) : Bytes :=
  let segments := t.segments
  (List.range length.toNat).map fun i =>
    (segments.findSome? (·.byte? (offset.toNat + i))).getD (t.imprint (offset.toNat + i))

/-- The value of a property. A record knows of a value behind it only where the block has it. -/
def read (t : Tree) (r : PropertyRecord) : Bytes :=
  if r.isInline then t.slice r.valueOffset r.valueLength else r.value

def release (t : Tree) (heap : Heap) : Heap := heap.release t.block

theorem read_of_isInline_eq_false (t : Tree) {r : PropertyRecord} (h : r.isInline = false) :
    t.read r = r.value := by
  simp [read, h]

theorem read_congr {s t : Tree} (hrecords : s.records = t.records)
    (himprint : s.imprint = t.imprint) : s.read = t.read := by
  funext r
  simp only [read, slice, segments, hrecords, himprint]

@[simp] theorem length_places (t : Tree) : t.places.length = t.records.length := by
  simp [places]

theorem node?_eq_some_iff {t : Tree} {i : Nat} {n : Node} :
    t.node? i = some n ↔ n.tree = t ∧ n.index = i := by
  unfold node?
  constructor
  · intro h
    split at h
    · cases h
      exact ⟨rfl, rfl⟩
    · contradiction
  · rintro ⟨rfl, rfl⟩
    rw [dif_pos n.index_lt]

@[simp] theorem getElem?_places (t : Tree) (i : Nat) : t.places[i]? = t.node? i := by
  unfold places node?
  by_cases h : i < t.records.length <;> simp [h]

end Tree

namespace Node

def record (n : Node) : NodeRecord := n.tree.records.get ⟨n.index, n.index_lt⟩

def isSame (m n : Node) : Bool := m.tree.isSame n.tree && m.index = n.index

/-- The nodes reached from `next` over links of one kind. A link leads to a later record, so one
sweep over the records meets all of them. -/
def follow (link : NodeRecord → Option Nat) (next : Option Nat) : List Node → List Node
  | [] => []
  | n :: rest =>
    if next = some n.index then n :: follow link (link n.record) rest else follow link next rest

def following (n : Node) : List Node := follow NodeRecord.next n.record.next n.tree.places

def pathBytes (n : Node) : Bytes := n.record.path

def nameValue (n : Node) : Bytes := (n.record.name.map n.tree.read).getD nullName

def nameBytes (n : Node) : Bytes := n.nameValue.trimNul

def typeBytes (n : Node) : Bytes := n.record.deviceType.trimNul

def path (n : Node) : Except Error String := n.pathBytes.text

/-- The last part of the path, unit address included. -/
def unitName (n : Node) : Except Error String := (Path.unitName n.pathBytes).text

def name (n : Node) : Except Error String := n.nameBytes.text

def deviceType (n : Node) : Except Error String := n.typeBytes.text

def phandle (n : Node) : Option UInt32 := n.record.phandle

def parent (n : Node) : Option Node := n.record.parent.bind n.tree.node?

def firstChild (n : Node) : Option Node := n.record.firstChild.bind n.tree.node?

def nextSibling (n : Node) : Option Node := n.record.nextSibling.bind n.tree.node?

def next (n : Node) : Option Node := n.record.next.bind n.tree.node?

def children (n : Node) : List Node :=
  follow NodeRecord.nextSibling n.record.firstChild n.tree.places

/-- The child after `previous`, or the first one. A node of another tree has nothing after it. -/
def nextChild (n : Node) : Option Node → Option Node
  | none => n.firstChild
  | some previous => if previous.tree.isSame n.tree then previous.nextSibling else none

def properties (n : Node) : List Property := n.record.properties.map (Property.mk n)

def property? (n : Node) (name : String) : Option Property :=
  n.properties.find? fun p => p.record.name = Bytes.ofString name

def HasFirst (n : Node) (name : String) (p : Property) : Prop :=
  p.record.name = Bytes.ofString name ∧ ∃ earlier later, n.properties = earlier ++ p :: later ∧
    ∀ q ∈ earlier, q.record.name ≠ Bytes.ofString name

theorem property?_eq_some_iff {n : Node} {name : String} {p : Property} :
    n.property? name = some p ↔ n.HasFirst name p := by
  simp [property?, HasFirst, List.find?_eq_some_iff_append]

theorem HasFirst.eq {n : Node} {name : String} {p q : Property} (h : n.HasFirst name p)
    (h' : n.HasFirst name q) : p = q :=
  Option.some.inj ((property?_eq_some_iff.2 h).symm.trans (property?_eq_some_iff.2 h'))

end Node

def Tree.nodes (t : Tree) : List Node := Node.follow NodeRecord.next (some 0) t.places

namespace Property

def value (p : Property) : Bytes := p.node.tree.read p.record

def name (p : Property) : Except Error String := p.record.name.text

def length (p : Property) : Nat := p.value.length

end Property
end Devicetree
