import Devicetree.Build.Fault
import Devicetree.Heap

/-!
# Measuring

The measuring pass runs over an outline without a block and finds the number of bytes its records
take. Children need the path of their parent, so each open node has a temporary of its own that
holds its path. A temporary is released when its node ends, and what is still open when the pass
stops is released then, the youngest first.
-/

namespace Devicetree
namespace Build

/-- The size of an open node's temporary without its path. -/
def temporarySize : Nat := 32

structure Temporary where
  path : Bytes
  block : Block

structure Measuring where
  cursor : Cursor
  /-- The intervals reserved for records, the last one first. -/
  reserved : List Interval
  /-- The temporaries of the open nodes, the youngest first. -/
  openNodes : List Temporary
  nodeCount : Nat
  /-- Whether the node last started has a property for its name. -/
  isNamed : Bool

namespace Measuring

def start : Measuring := ⟨.start, [], [], 0, false⟩

def path? (m : Measuring) : Option Bytes := m.openNodes.head?.map Temporary.path

def reserve (m : Measuring) (length : Nat) : Except Fault Measuring :=
  match m.cursor.reserveRecord length with
  | none => .error .outOfRange
  | some (interval, cursor) => .ok { m with cursor, reserved := interval :: m.reserved }

def startNode (m : Measuring) (heap : Heap) (name : Bytes) : Heap × Except Fault Measuring :=
  let path := Path.join m.path? name
  match m.reserve (nodeRecordSize + path.length) with
  | .error f => (heap, .error f)
  | .ok m =>
    match Layout.of? (temporarySize + path.length) recordAlign with
    | none => (heap, .error .outOfRange)
    | some layout =>
      match heap.allocate layout with
      | (heap, none) => (heap, .error .temporaryRefused)
      | (heap, some block) =>
        (heap, .ok { m with
          openNodes := ⟨path, block⟩ :: m.openNodes
          nodeCount := m.nodeCount + 1
          isNamed := false })

def addProperty (m : Measuring) (name : Bytes) : Except Fault Measuring :=
  { m with isNamed := m.isNamed || name = nameKey }.reserve propertyRecordSize

def endProperties (m : Measuring) : Except Fault Measuring :=
  if m.isNamed then .ok m
  else m.reserve (propertyRecordSize + ((Path.shortName (m.path?.getD [])).length + 1))

/-- The end of a node that was never started ends nothing. -/
def endNode (m : Measuring) (heap : Heap) : Heap × Measuring :=
  match m.openNodes with
  | [] => (heap, m)
  | t :: rest => (heap.release t.block, { m with openNodes := rest })

def step (m : Measuring) (heap : Heap) : Event → Heap × Except Fault Measuring
  | .startNode name => m.startNode heap name
  | .property name _ => (heap, m.addProperty name)
  | .endProperties => (heap, m.endProperties)
  | .endNode =>
    let (heap, m) := m.endNode heap
    (heap, .ok m)

/-- Where a pass got: its last good state and why it went no further. -/
structure Run where
  heap : Heap
  last : Measuring
  fault : Option Fault

def run (m : Measuring) (heap : Heap) : List Event → Run
  | [] => ⟨heap, m, none⟩
  | e :: rest =>
    match m.step heap e with
    | (heap, .error f) => ⟨heap, m, some f⟩
    | (heap, .ok m) => m.run heap rest

end Measuring

/-- The size of the records of a blob's tree, rounded up to words. -/
def measure (b : Blob) (heap : Heap) : Heap × Except Fault Nat :=
  let outline := b.outline
  let run := Measuring.start.run heap outline.events
  let heap := run.heap.releaseAll (run.last.openNodes.map Temporary.block)
  match run.fault.or (Fault.ofEnding? outline.ending) with
  | some f => (heap, .error f)
  | none => (heap, .ok (Word.alignUp run.last.cursor.offset 4).toNat)

/-- The block for records of the given size: room for the mark, and aligned like a record. -/
def blockLayout (size : Nat) : Option Layout := Layout.of? (size + markSize) recordAlign

def layout (b : Blob) (heap : Heap) : Heap × Except Fault Layout :=
  let (heap, size) := measure b heap
  (heap, size.bind fun size => (blockLayout size).elim (.error .outOfRange) .ok)

end Build
end Devicetree
