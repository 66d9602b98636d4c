import Devicetree.Build
import Devicetree.Search

/-!
# Machines

A machine holds at most one tree and tells how far it has come with it. Setting up a blob drops
the tree that was there, whether or not the new one can be built.
-/

namespace Devicetree

structure Machine where
  heap : Heap
  stage : Stage
  tree : Option Tree

namespace Machine

def start (heap : Heap) : Machine := ⟨heap, .uninitialized, none⟩

def drop (m : Machine) : Heap :=
  match m.tree with
  | none => m.heap
  | some t => t.release m.heap

def tearDown (m : Machine) : Machine := ⟨m.drop, .uninitialized, none⟩

/-- The notices of a machine that goes through a journal, and the stage that it ends in. -/
def follow (stage : Stage) : List Build.Entry → Stage × List Notice
  | [] => (stage, [])
  | .reached next :: rest =>
    let (last, notices) := follow next rest
    (last, .moved stage next :: notices)
  | .noted notice :: rest =>
    let (last, notices) := follow stage rest
    (last, notice :: notices)

/-- What a machine is after a step, the step's answer, and its notices. -/
structure Step where
  machine : Machine
  answer : Except Error Unit
  notices : List Notice

def setUpBlob (m : Machine) (blob : Except Error Blob) : Step :=
  match blob with
  | .error e =>
    ⟨{ m with stage := .failed }, .error e, if e.isInvalidBlob then [.noBlob e] else []⟩
  | .ok b =>
    let outcome := build b m.heap
    let (stage, notices) := follow m.stage outcome.journal
    match outcome.result with
    | .ok tree => ⟨⟨outcome.heap, stage, some tree⟩, .ok (), notices⟩
    | .error e => ⟨⟨outcome.heap, .failed, none⟩, .error e, notices ++ [.gaveUp stage e]⟩

def setUp (m : Machine) (buffer : Buffer) : Step := m.tearDown.setUpBlob (Blob.ofBuffer buffer)

/-- Sets up the blob at an address, `none` for null. -/
def setUpMemory (m : Machine) (memory : Option Buffer) : Step :=
  m.tearDown.setUpBlob (Blob.ofMemory memory)

def root (m : Machine) : Option Node := m.tree.map Tree.root

def findByPath (m : Machine) (path : String) : Option Node :=
  m.tree.bind fun t => t.findByPath path

def findByName (m : Machine) (after : Option Node) (name : String) : Option Node :=
  m.tree.bind fun t => t.findByName after name

def findByType (m : Machine) (after : Option Node) (deviceType : String) : Option Node :=
  m.tree.bind fun t => t.findByType after deviceType

def findByPhandle (m : Machine) (after : Option Node) (handle : UInt32) : Option Node :=
  m.tree.bind fun t => t.findByPhandle after handle

def findCompatible (m : Machine) (after : Option Node) (deviceType : Option String)
    (name : String) : Option Node :=
  m.tree.bind fun t => t.findCompatible after deviceType name

def findMatching (m : Machine) (after : Option Node) (table : List String) :
    Option (Node × Nat) :=
  m.tree.bind fun t => t.findMatching after table

end Machine
end Devicetree
