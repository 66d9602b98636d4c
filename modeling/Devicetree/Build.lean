import Devicetree.Build.Measure
import Devicetree.Build.Populate
import Devicetree.Tree

/-!
# Building

A build measures a blob's tree, requests one block for it, populates the block, and checks at the
end that the records stayed inside what was measured. A build that fails after its block was
granted gives the block back. The journal tells what a build did in order.
-/

namespace Devicetree
namespace Build

inductive Entry
  | reached (stage : Stage)
  | noted (notice : Notice)

structure Outcome where
  heap : Heap
  result : Except Error Tree
  journal : List Entry

def Outcome.notices (o : Outcome) : List Notice :=
  o.journal.filterMap fun
    | .reached _ => none
    | .noted notice => some notice

/-- Whether no record reaches past `size`, where the mark is. -/
def fits (size : Nat) (records : List NodeRecord) : Bool :=
  (records.flatMap NodeRecord.intervals).all fun i => i.stop ≤ size

/-- The tree of a populated block, if its records are what was measured: they take that many
bytes, leave the mark alone, and hold a root. -/
def verify (b : Blob) (heap : Heap) (block : Block) (size : Nat) (p : Populating) :
    Except Fault Tree :=
  if h : fits size p.records ∧ (Word.alignUp p.cursor.offset 4).toNat = size ∧ p.records ≠ [] then
    .ok ⟨b, block, size, p.nodeCount, p.records, h.2.2, heap.imprint b p.records⟩
  else .error (.blockOverrun size p.cursor.offset.toNat)

def Outcome.stopped (heap : Heap) (journal : List Entry) (f : Fault) : Outcome :=
  ⟨heap, .error f.error, journal ++ f.notices.map .noted⟩

def finish (b : Blob) (heap : Heap) (block : Block) (size : Nat) (journal : List Entry) :
    Outcome :=
  let journal := journal ++ [.reached .allocated]
  match populate b size with
  | .error f => .stopped (heap.release block) journal f
  | .ok p =>
    let journal := journal ++ [.reached .populated]
    match verify b heap block size p with
    | .error f => .stopped (heap.release block) journal f
    | .ok tree =>
      ⟨heap, .ok tree, journal ++ [.noted (.built tree.nodeCount), .reached .ready]⟩

end Build

open Build in
def build (b : Blob) (heap : Heap) : Build.Outcome :=
  let journal := [.reached .headerValidated]
  match measure b heap with
  | (heap, .error f) => .stopped heap journal f
  | (heap, .ok size) =>
    let journal := journal ++ [.noted (.measured size), .reached .sized]
    match blockLayout size with
    | none => .stopped heap journal .outOfRange
    | some layout =>
      match heap.allocate layout with
      | (heap, none) => .stopped heap journal (.blockRefused layout.size)
      | (heap, some block) => finish b heap block size journal

end Devicetree
