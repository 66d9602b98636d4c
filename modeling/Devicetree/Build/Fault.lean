import Devicetree.Notice
import Devicetree.Outline

/-!
# Faults

Why a build stops before it has a tree.
-/

namespace Devicetree
namespace Build

inductive Fault
  /-- The blob does not hold a tree. -/
  | blob (e : Error)
  /-- A record or a block would be too large to address. -/
  | outOfRange
  | temporaryRefused
  | blockRefused (size : Nat)
  /-- A record that ends at `stop` does not fit the block. -/
  | recordOverrun (offset stop measured : Nat)
  | blockOverrun (measured populated : Nat)
  deriving DecidableEq

namespace Fault

/-- Why a pass stops at the end of its outline. -/
def ofEnding? : Outline.Ending → Option Fault
  | .complete => none
  | .empty => some (.blob .noNodes)
  | .failed e => some (.blob e)

def error : Fault → Error
  | .blob e => e
  | .outOfRange | .temporaryRefused | .blockRefused _ => .outOfMemory
  | .recordOverrun _ stop measured => .sizeMismatch measured stop
  | .blockOverrun measured populated => .sizeMismatch measured populated

def notices : Fault → List Notice
  | .blob _ | .outOfRange => []
  | .temporaryRefused => [.temporaryRefused]
  | .blockRefused size => [.blockRefused size]
  | .recordOverrun offset _ measured => [.recordOverrun offset measured]
  | .blockOverrun measured populated => [.blockOverrun measured populated]

end Fault
end Build
end Devicetree
