import Devicetree.Bytes

/-!
# Paths

A node's path joins the names from the root down with slashes. The name of a node without a
`name` property is cut out of its path.
-/

namespace Devicetree
namespace Path

def slash : UInt8 := 0x2f

/-- Begins the unit address at the end of a node's name. -/
def unitMark : UInt8 := 0x40

def root : Bytes := [slash]

/-- The path of a node, from its parent's path and its name in the blob. A name that starts with
a slash is a path already; the path of a node without a parent is otherwise the root's. -/
def join (parent : Option Bytes) (name : Bytes) : Bytes :=
  if name.head? = some slash then name
  else
    match parent with
    | none => root
    | some path => (if path = root then [] else path) ++ slash :: name

/-- What follows the last slash. -/
def unitName (path : Bytes) : Bytes :=
  (path.reverse.takeWhile (· ≠ slash)).reverse

/-- The unit name without its unit address. -/
def shortName (path : Bytes) : Bytes :=
  (unitName path).takeWhile (· ≠ unitMark)

end Path
end Devicetree
