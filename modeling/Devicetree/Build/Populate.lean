import Devicetree.Build.Fault
import Devicetree.Record

/-!
# Populating

The populating pass runs over the same outline with a block of the measured size. It reserves the
same intervals, checks each against the block, and links every new record to its relatives.
-/

namespace Devicetree
namespace Build

structure Populating where
  cursor : Cursor
  /-- The records of all nodes so far, in document order. -/
  records : List NodeRecord
  /-- The position of the youngest open node. -/
  current : Option Nat
  /-- The position of the node last started. -/
  last : Option Nat
  nodeCount : Nat
  /-- Whether the node last started has a property for its name. -/
  isNamed : Bool
  deriving DecidableEq

namespace Populating

def start : Populating := ⟨.start, [], none, none, 0, false⟩

def path? (p : Populating) : Option Bytes :=
  (p.current.bind fun i => p.records[i]?).map NodeRecord.path

/-- Reserves bytes for a record in a block of `size` bytes and the mark behind them. -/
def reserve (p : Populating) (size length : Nat) : Except Fault (UInt32 × Populating) :=
  match p.cursor.reserveRecord length with
  | none => .error .outOfRange
  | some (interval, cursor) =>
    if interval.stop ≤ size + markSize then .ok (interval.offset, { p with cursor })
    else .error (.recordOverrun interval.offset.toNat interval.stop size)

/-- Links the node that will come at position `i` as the last child of its parent. -/
def link (records : List NodeRecord) (parent i : Nat) : List NodeRecord :=
  let records :=
    match records[parent]?.bind NodeRecord.lastChild with
    | none => records.modify parent fun r => { r with firstChild := some i }
    | some previous => records.modify previous fun r => { r with nextSibling := some i }
  records.modify parent fun r => { r with lastChild := some i }

/-- Links the node that will come at position `i` behind the node started before it. -/
def chain (records : List NodeRecord) (previous i : Nat) : List NodeRecord :=
  records.modify previous fun r => { r with next := some i }

def append (records : List NodeRecord) (offset : UInt32) (path : Bytes)
    (parent last : Option Nat) : List NodeRecord :=
  let i := records.length
  let records := parent.elim records (link records · i)
  let records := last.elim records (chain records · i)
  records ++ [.leaf offset path parent]

def startNode (p : Populating) (size : Nat) (name : Bytes) : Except Fault Populating :=
  let path := Path.join p.path? name
  match p.reserve size (nodeRecordSize + path.length) with
  | .error f => .error f
  | .ok (off, p) =>
    .ok { p with
      records := append p.records off path p.current p.last
      current := some p.records.length
      last := some p.records.length
      nodeCount := p.nodeCount + 1
      isNamed := false }

def attach (records : List NodeRecord) (property : PropertyRecord) : List NodeRecord :=
  records.modify (records.length - 1) fun r => r.addProperty property

def addProperty (p : Populating) (size : Nat) (name value : Bytes) : Except Fault Populating :=
  match p.reserve size propertyRecordSize with
  | .error f => .error f
  | .ok (off, p) =>
    .ok { p with
      records := attach p.records ⟨off, name, value, false⟩
      isNamed := p.isNamed || name = nameKey }

/-- Names a node that has no property for its name after its path. -/
def endProperties (p : Populating) (size : Nat) : Except Fault Populating :=
  if p.isNamed then .ok p
  else
    let value := Path.shortName (p.path?.getD []) ++ [0]
    match p.reserve size (propertyRecordSize + value.length) with
    | .error f => .error f
    | .ok (off, p) => .ok { p with records := attach p.records ⟨off, nameKey, value, true⟩ }

/-- The end of a node that was never started ends nothing. -/
def endNode (p : Populating) : Populating :=
  { p with current := p.current.bind fun i => p.records[i]?.bind NodeRecord.parent }

def step (p : Populating) (size : Nat) : Event → Except Fault Populating
  | .startNode name => p.startNode size name
  | .property name value => p.addProperty size name value
  | .endProperties => p.endProperties size
  | .endNode => .ok p.endNode

def run (p : Populating) (size : Nat) : List Event → Except Fault Populating
  | [] => .ok p
  | e :: rest =>
    match p.step size e with
    | .error f => .error f
    | .ok p => p.run size rest

end Populating

def populate (b : Blob) (size : Nat) : Except Fault Populating :=
  let outline := b.outline
  match Populating.start.run size outline.events with
  | .error f => .error f
  | .ok p => (Fault.ofEnding? outline.ending).elim (.ok p) .error

end Build
end Devicetree
