import Devicetree.Tree

/-!
# Searches

A search answers the first node in document order that satisfies it, among all nodes or among
those after a given one. Feeding each answer back lists every such node once. A node of another
tree has nothing after it.
-/

namespace Devicetree
namespace Node

/-- The text entries of a node's `compatible` property name what it is, the best name first. -/
def isCompatible (n : Node) (name : String) : Bool :=
  match n.property? "compatible" with
  | none => false
  | some p => (Value.entries p.value).any fun e => e ≠ [] && e = Bytes.ofString name

/-- The position of the first name in a table that the node is compatible with. -/
def matchTable (n : Node) (table : List String) : Option Nat :=
  table.findIdx? n.isCompatible

/-- A node is in use unless its status says otherwise. -/
def isAvailable (n : Node) : Bool :=
  match n.property? "status" with
  | none => true
  | some p =>
    let status := p.value.trimNul
    status = Bytes.ofString "ok" || status = Bytes.ofString "okay"

def readCellIndex (n : Node) (name : String) (index : UInt64) : Option UInt32 := do
  let off ← Word.mul? index 4
  let p ← n.property? name
  (Value.cellAt p.value off).toOption

def readCell (n : Node) (name : String) : Option UInt32 := n.readCellIndex name 0

def readTextIndex (n : Node) (name : String) (index : UInt64) : Option String := do
  let p ← n.property? name
  let entry ← (Value.entries p.value)[index.toNat]?
  entry.text.toOption

def readText (n : Node) (name : String) : Option String := n.readTextIndex name 0

def countTexts (n : Node) (name : String) : Option Nat := do
  let p ← n.property? name
  (Value.countTexts p.value).toOption

end Node

namespace Tree

/-- The nodes after a given one, or all of them. -/
def scan (t : Tree) : Option Node → List Node
  | none => t.nodes
  | some n => if n.tree.isSame t then n.following else []

def findByPath (t : Tree) (path : String) : Option Node :=
  t.nodes.find? fun n => n.pathBytes = Bytes.ofString path

def findByName (t : Tree) (after : Option Node) (name : String) : Option Node :=
  (t.scan after).find? fun n => n.nameBytes = Bytes.ofString name

def findByType (t : Tree) (after : Option Node) (deviceType : String) : Option Node :=
  (t.scan after).find? fun n => n.typeBytes = Bytes.ofString deviceType

def findByPhandle (t : Tree) (after : Option Node) (handle : UInt32) : Option Node :=
  (t.scan after).find? fun n => n.phandle = some handle

def findCompatible (t : Tree) (after : Option Node) (deviceType : Option String)
    (name : String) : Option Node :=
  (t.scan after).find? fun n =>
    (match deviceType with
      | none => true
      | some ty => n.typeBytes = Bytes.ofString ty) && n.isCompatible name

/-- Finds a node compatible with some name in a table, and that name's first position there. -/
def findMatching (t : Tree) (after : Option Node) (table : List String) : Option (Node × Nat) :=
  (t.scan after).findSome? fun n => (n.matchTable table).map (n, ·)

def compatibleNodes (t : Tree) (name : String) : List Node :=
  t.nodes.filter (·.isCompatible name)

end Tree

def Node.followingCompatible (n : Node) (name : String) : List Node :=
  n.following.filter (·.isCompatible name)

end Devicetree
