import Devicetree.Machine

/-!
# Diagnostic views

How trees, nodes, properties and machines appear in diagnostics.
-/

namespace Devicetree

def Tree.debugText (t : Tree) : String :=
  Quoted.fields "DeviceTree" [("size", toString t.size), ("node_count", toString t.nodeCount)]

def Node.debugText (n : Node) : String :=
  Quoted.fields "DeviceNode" [("full_name", debugOutcome n.path)]

def Property.debugText (p : Property) : String :=
  Quoted.fields "DeviceProp" [("name", debugOutcome p.name), ("length", toString p.length)]

def Machine.debugText (m : Machine) : String :=
  Quoted.fields "Machine"
    [("state", m.stage.label), ("tree", Quoted.optional (m.tree.map Tree.debugText))]

end Devicetree
