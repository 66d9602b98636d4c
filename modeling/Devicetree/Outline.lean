import Devicetree.Token.Reader

/-!
# Outlines

An outline is what the tokens of a structure block say about the tree: nodes that start and end,
each with a run of named properties right after its start. Padding tokens are gone and property
names are looked up. An outline ends early where the tokens make no tree.
-/

namespace Devicetree

inductive Event
  | startNode (name : Bytes)
  | property (name value : Bytes)
  /-- The node last started has no more properties. -/
  | endProperties
  | endNode
  deriving DecidableEq

namespace Outline

inductive Ending
  | complete
  /-- The structure block does not start with a node. -/
  | empty
  | failed (e : Error)
  deriving DecidableEq

/-- Where the tokens read so far leave the outline. -/
inductive Place
  /-- No node has started. -/
  | start
  /-- A node has started and only its properties followed. -/
  | header
  | body
  deriving DecidableEq

end Outline

structure Outline where
  events : List Event
  ending : Outline.Ending
  deriving DecidableEq

namespace Outline

def stop (ending : Ending) : Outline := ⟨[], ending⟩

def cons (e : Event) (o : Outline) : Outline := { o with events := e :: o.events }

/-- The outline of the tokens from some place on, the outcome being that of reading the tokens.
The properties of a node end before any token that is not a property. -/
def ofTokens (nameAt : UInt32 → Except Error Bytes) (outcome : Except Error Unit) :
    Place → List Token → Outline
  | place, [] =>
    match outcome, place with
    | .error e, _ => stop (.failed e)
    | .ok (), .start => stop .empty
    | .ok (), .header => cons .endProperties (stop .complete)
    | .ok (), .body => stop .complete
  | place, .nop :: rest => ofTokens nameAt outcome place rest
  | .start, .beginNode name :: rest =>
    cons (.startNode name) (ofTokens nameAt outcome .header rest)
  | .start, .endNode :: _ => stop .empty
  | .start, .property _ _ :: _ => stop .empty
  | .header, .property nameOffset value :: rest =>
    match nameAt nameOffset with
    | .error e => stop (.failed e)
    | .ok name => cons (.property name value) (ofTokens nameAt outcome .header rest)
  | .header, .beginNode name :: rest =>
    cons .endProperties (cons (.startNode name) (ofTokens nameAt outcome .header rest))
  | .header, .endNode :: rest =>
    cons .endProperties (cons .endNode (ofTokens nameAt outcome .body rest))
  | .body, .property _ _ :: _ => stop (.failed .malformed)
  | .body, .beginNode name :: rest =>
    cons (.startNode name) (ofTokens nameAt outcome .header rest)
  | .body, .endNode :: rest => cons .endNode (ofTokens nameAt outcome .body rest)

end Outline

def Blob.outline (b : Blob) : Outline :=
  let stream := b.tokens
  Outline.ofTokens (fun off => b.stringAt off.toUInt64) stream.outcome .start stream.tokens

end Devicetree
