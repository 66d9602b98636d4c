import Devicetree.Error

/-!
# Notices

What a build or a look-up has to tell besides its answer. A notice is a cause; its level and its
text are functions of it.
-/

namespace Devicetree

/-- How far a machine has come with its tree. -/
inductive Stage
  | uninitialized
  | headerValidated
  | sized
  | allocated
  | populated
  | ready
  | failed
  deriving DecidableEq

def Stage.label : Stage → String
  | .uninitialized => "Uninitialized"
  | .headerValidated => "HeaderValidated"
  | .sized => "Sized"
  | .allocated => "Allocated"
  | .populated => "Populated"
  | .ready => "Ready"
  | .failed => "Failed"

inductive Level
  | trace
  | debug
  | info
  | warn
  | error
  deriving DecidableEq

def Level.label : Level → String
  | .trace => "TRACE"
  | .debug => "DEBUG"
  | .info => "INFO"
  | .warn => "WARN"
  | .error => "ERROR"

inductive Notice
  | moved (before after : Stage)
  | gaveUp (before : Stage) (cause : Error)
  /-- What was to be set up is no blob. -/
  | noBlob (cause : Error)
  | measured (size : Nat)
  | built (nodeCount : Nat)
  | temporaryRefused
  | blockRefused (size : Nat)
  | recordOverrun (offset measured : Nat)
  | blockOverrun (measured populated : Nat)
  /-- Following the interrupt parents of a node goes on for ever. -/
  | endlessInterruptChain (path : Except Error String)

namespace Notice

def level : Notice → Level
  | .moved _ _ | .gaveUp _ _ => .trace
  | .measured _ | .built _ => .debug
  | .noBlob _ | .endlessInterruptChain _ => .warn
  | .temporaryRefused | .blockRefused _ | .recordOverrun _ _ | .blockOverrun _ _ => .error

def text : Notice → String
  | .moved before after => "device tree: " ++ before.label ++ " -> " ++ after.label
  | .gaveUp before cause =>
    "device tree: " ++ before.label ++ " -> " ++ Stage.failed.label ++ " (" ++ cause.message ++ ")"
  | .noBlob cause => "no device tree set up: " ++ cause.message
  | .measured size => s!"device tree needs {size} bytes"
  | .built nodeCount => s!"unflattened {nodeCount} device tree nodes"
  | .temporaryRefused => "unable to allocate a temporary device tree node"
  | .blockRefused size => s!"unable to allocate {size} bytes for the device tree"
  | .recordOverrun offset size =>
    "device tree record at 0x" ++ Quoted.hex offset ++ s!" runs past the {size} measured bytes"
  | .blockOverrun size used =>
    s!"device tree overran its block: measured {size} bytes, populated {used}"
  | .endlessInterruptChain path =>
    "interrupt parent chain of " ++ debugOutcome path ++ " does not end"

end Notice

/-- An answer and what was noticed on the way to it. -/
structure Noticed (α : Type) where
  value : α
  notices : List Notice

def Noticed.map {α β : Type} (f : α → β) (n : Noticed α) : Noticed β :=
  ⟨f n.value, n.notices⟩

end Devicetree
