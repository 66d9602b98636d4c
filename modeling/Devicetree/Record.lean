import Devicetree.Cursor
import Devicetree.Path

/-!
# Records

A tree is stored in one block: for each node a record with the node's path behind it, then a
record for each of its properties. Records start at multiples of eight, and their offsets have to
fit half a word. After the last record comes a mark that no record may touch. The name of a node
that has no property for it is stored behind a property's record, and the record keeps half a word
each for where that is and how long it is.
-/

namespace Devicetree

/-- The size of a node's record without its path. -/
def nodeRecordSize : Nat := 112

/-- The size of a property's record without an inline value. -/
def propertyRecordSize : Nat := 40

def recordAlign : Nat := 8

def markSize : Nat := 4

/-- The name of the property that names its node. -/
def nameKey : Bytes := Bytes.ofString "name"

def deviceTypeKey : Bytes := Bytes.ofString "device_type"

def phandleKey : Bytes := Bytes.ofString "phandle"

/-- Stands for a node's name or type when no property gives one. -/
def nullName : Bytes := Bytes.ofString "<null>"

structure Interval where
  offset : UInt32
  length : Nat
  deriving DecidableEq

def Interval.stop (i : Interval) : Nat := i.offset.toNat + i.length

structure PropertyRecord where
  offset : UInt32
  name : Bytes
  /-- The value as it was written. -/
  value : Bytes
  /-- Whether the value is stored behind the record and not in the blob. -/
  isInline : Bool
  deriving DecidableEq

/-- Bytes that the block holds as they are: a path or a value. -/
structure Segment where
  start : Nat
  bytes : Bytes

def Segment.byte? (s : Segment) (i : Nat) : Option UInt8 :=
  if s.start ≤ i then s.bytes[i - s.start]? else none

namespace PropertyRecord

def interval (r : PropertyRecord) : Interval :=
  ⟨r.offset, if r.isInline then propertyRecordSize + r.value.length else propertyRecordSize⟩

def segment? (r : PropertyRecord) : Option Segment :=
  if r.isInline then some ⟨r.offset.toNat + propertyRecordSize, r.value⟩ else none

/-- What the record keeps of the offset of a value behind it. The record's own offset was checked,
this one is cut to half a word. -/
def valueOffset (r : PropertyRecord) : UInt32 := UInt32.ofNat (r.offset.toNat + propertyRecordSize)

def valueLength (r : PropertyRecord) : UInt32 := UInt32.ofNat r.value.length

end PropertyRecord

/-- A node, linked to other nodes by their position in document order. -/
structure NodeRecord where
  offset : UInt32
  path : Bytes
  parent : Option Nat
  firstChild : Option Nat
  lastChild : Option Nat
  nextSibling : Option Nat
  /-- The node started after this one, whatever its parent. -/
  next : Option Nat
  /-- The last `name` property so far. -/
  name : Option PropertyRecord
  /-- The value of the last `device_type` property so far. -/
  deviceType : Bytes
  /-- The first cell of the last `phandle` property so far. -/
  phandle : Option UInt32
  properties : List PropertyRecord
  deriving DecidableEq

namespace NodeRecord

def interval (r : NodeRecord) : Interval := ⟨r.offset, nodeRecordSize + r.path.length⟩

def intervals (r : NodeRecord) : List Interval :=
  r.interval :: r.properties.map PropertyRecord.interval

def segments (r : NodeRecord) : List Segment :=
  ⟨r.offset.toNat + nodeRecordSize, r.path⟩ :: r.properties.filterMap PropertyRecord.segment?

def leaf (offset : UInt32) (path : Bytes) (parent : Option Nat) : NodeRecord where
  offset
  path
  parent
  firstChild := none
  lastChild := none
  nextSibling := none
  next := none
  name := none
  deviceType := nullName
  phandle := none
  properties := []

/-- Appends a property. The properties for a node's name, type and handle are kept apart too. -/
def addProperty (r : NodeRecord) (p : PropertyRecord) : NodeRecord :=
  let r := { r with properties := r.properties ++ [p] }
  if p.name = nameKey then { r with name := some p }
  else if p.name = deviceTypeKey then { r with deviceType := p.value }
  else if p.name = phandleKey then { r with phandle := p.value.word32? 0 }
  else r

end NodeRecord

/-- Reserves a record, if its offset fits half a word. -/
def Cursor.reserveRecord (c : Cursor) (length : Nat) : Option (Interval × Cursor) :=
  let (off, c) := c.reserve (UInt64.ofNat length) (UInt64.ofNat recordAlign)
  if off.toNat < UInt32.size then some (⟨off.toUInt32, length⟩, c) else none

end Devicetree
