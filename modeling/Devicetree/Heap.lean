import Devicetree.Blob
import Devicetree.Record

/-!
# Heaps

A heap answers requests for memory one after another, granting or refusing each, and remembers
what it did. A block is known by the heap it comes from and the number of the request that got it.
Paths and values stand in a block as they are. Of the bytes of the records themselves nothing is
said but what they can depend on: records hold the addresses of names and values in the blob.
-/

namespace Devicetree

structure Layout where
  size : Nat
  align : Nat
  deriving DecidableEq

/-- The layout of `size` bytes at multiples of `align`. No object reaches past half of the
address space, the rounding of its size included. -/
def Layout.of? (size align : Nat) : Option Layout :=
  if size + align ≤ UInt64.size / 2 then some ⟨size, align⟩ else none

structure Block where
  heap : Nat
  serial : Nat
  layout : Layout
  deriving DecidableEq

namespace Heap

inductive Action
  | granted (block : Block)
  | refused (layout : Layout)
  | released (block : Block)
  deriving DecidableEq

end Heap

structure Heap where
  /-- Tells the blocks of different heaps apart. -/
  id : Nat
  /-- Whether the request of each number, counted from zero, is granted. -/
  grants : Nat → Bool
  requests : Nat
  /-- The actions so far, the last one first. -/
  history : List Heap.Action
  /-- The byte at each offset of a block that holds the records of a blob's tree, where it is
  neither a path's nor a value's. -/
  imprint : Blob → List NodeRecord → Nat → UInt8

namespace Heap

/-- A heap that has not been used and will grant every request. -/
def fresh (id : Nat) : Heap := ⟨id, fun _ => true, 0, [], fun _ _ _ => 0⟩

/-- Grants the next `n` requests and refuses all later ones, or grants all without a limit. -/
def limit (h : Heap) : Option Nat → Heap
  | none => { h with grants := fun _ => true }
  | some n => { h with grants := fun i => i < h.requests + n }

def allocate (h : Heap) (layout : Layout) : Heap × Option Block :=
  if h.grants h.requests then
    let block : Block := ⟨h.id, h.requests, layout⟩
    ({ h with requests := h.requests + 1, history := .granted block :: h.history }, some block)
  else
    ({ h with requests := h.requests + 1, history := .refused layout :: h.history }, none)

def release (h : Heap) (block : Block) : Heap :=
  { h with history := .released block :: h.history }

def releaseAll (h : Heap) (blocks : List Block) : Heap :=
  blocks.foldl release h

/-- The actions so far in order. -/
def trace (h : Heap) : List Action := h.history.reverse

def grantCount (h : Heap) : Nat :=
  h.history.countP fun | .granted _ => true | _ => false

def releaseCount (h : Heap) : Nat :=
  h.history.countP fun | .released _ => true | _ => false

def liveCount (h : Heap) : Nat := h.grantCount - h.releaseCount

end Heap
end Devicetree
