import Devicetree.Notice
import Devicetree.Search

/-!
# Interrupt routing

A node's interrupts go to another node, named by the node's handle or else its parent. Following
these steps from a node, the first node met that counts interrupt cells is the controller. The
handles may lead in a circle; after more steps than there are nodes, one is met again.
-/

namespace Devicetree
namespace Node

/-- The properties that name where a node's interrupts go, the first one that does so first. -/
def interruptParentKeys : List String :=
  ["interrupt-parent", "interrupt-extended", "interrupts-extended"]

def interruptStep (n : Node) : Option Node :=
  let handles := interruptParentKeys.filterMap n.readCell
  (handles.findSome? (n.tree.findByPhandle none)).or n.parent

/-- The property of interrupt controllers that counts the cells of an interrupt. -/
def interruptCellsKey : String := "#interrupt-cells"

def isController (n : Node) : Bool := (n.property? interruptCellsKey).isSome

inductive Route
  | controller (n : Node)
  /-- Some node on the way has nowhere to go. -/
  | lost
  | endless

def routeWithin : Nat → Node → Route
  | 0, _ => .endless
  | steps + 1, n =>
    match n.interruptStep with
    | none => .lost
    | some next => if next.isController then .controller next else routeWithin steps next

def interruptRoute (n : Node) : Route := routeWithin (n.tree.nodeCount + 1) n

def Route.controller? : Route → Option Node
  | .controller n => some n
  | .lost | .endless => none

/-- The controller of a node's interrupts. A route without an end is worth a warning. -/
def interruptParent (n : Node) : Noticed (Option Node) :=
  let route := n.interruptRoute
  ⟨route.controller?,
    match route with
    | .endless => [.endlessInterruptChain n.path]
    | _ => []⟩

/-- The cells that one interrupt of the node takes, or zero without a controller. -/
def interruptCells (n : Node) : Noticed UInt32 :=
  n.interruptParent.map fun controller =>
    (controller.bind fun c => c.readCell interruptCellsKey).getD 0

/-- The number of complete interrupts that the node lists. -/
def interruptCount (n : Node) : Noticed Nat :=
  n.interruptCells.map fun (cells : UInt32) =>
    if cells = 0 then 0
    else
      match n.property? "interrupts" with
      | none => 0
      | some p => p.length / 4 / cells.toNat

end Node
end Devicetree
