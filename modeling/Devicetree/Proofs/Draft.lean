import Devicetree.Outline
import Devicetree.Record
import Mathlib.Algebra.Group.Nat.Defs

/-!
# Drafts

A draft is what an outline says about the nodes of a tree, before any memory is found for them:
their paths, parents and properties. Every event extends a draft and none fails, so a draft is a
fold over the events. What a pass over the outline adds is where the records go.
-/

namespace Devicetree

def Event.isStart : Event → Bool
  | .startNode _ => true
  | .property _ _ | .endProperties | .endNode => false

def Event.startCount (events : List Event) : Nat := events.countP isStart

theorem Event.startCount_cons (e : Event) (rest : List Event) :
    startCount (e :: rest) = startCount rest + if e.isStart then 1 else 0 := by
  unfold startCount
  exact List.countP_cons

/-- What the events so far say about a node. -/
structure DraftNode where
  path : Bytes
  parent : Option Nat
  properties : List (Bytes × Bytes)

structure Draft where
  nodes : List DraftNode
  /-- The position of the youngest open node. -/
  current : Option Nat
  /-- Whether the node last started has a property for its name. -/
  isNamed : Bool

namespace Draft

def start : Draft := ⟨[], none, false⟩

def path? (d : Draft) : Option Bytes := (d.current.bind fun i => d.nodes[i]?).map DraftNode.path

def attach (nodes : List DraftNode) (property : Bytes × Bytes) : List DraftNode :=
  nodes.modify (nodes.length - 1) fun n => { n with properties := n.properties ++ [property] }

/-- The value of the property that names a node without one. -/
def ownName (d : Draft) : Bytes := Path.shortName (d.path?.getD []) ++ [0]

def step (d : Draft) : Event → Draft
  | .startNode name =>
    ⟨d.nodes ++ [⟨Path.join d.path? name, d.current, []⟩], some d.nodes.length, false⟩
  | .property name value =>
    { d with nodes := attach d.nodes (name, value), isNamed := d.isNamed || name = nameKey }
  | .endProperties =>
    if d.isNamed then d else { d with nodes := attach d.nodes (nameKey, d.ownName) }
  | .endNode => { d with current := d.current.bind fun i => d.nodes[i]?.bind DraftNode.parent }

def run (d : Draft) (events : List Event) : Draft := events.foldl step d

@[simp] theorem run_nil (d : Draft) : d.run [] = d := rfl

@[simp] theorem run_cons (d : Draft) (e : Event) (rest : List Event) :
    d.run (e :: rest) = (d.step e).run rest := rfl

theorem run_append (d : Draft) (first rest : List Event) :
    d.run (first ++ rest) = (d.run first).run rest := List.foldl_append

@[simp] theorem length_attach (nodes : List DraftNode) (p : Bytes × Bytes) :
    (attach nodes p).length = nodes.length := List.length_modify ..

theorem length_nodes_run (d : Draft) (events : List Event) :
    (d.run events).nodes.length = d.nodes.length + Event.startCount events := by
  induction events generalizing d with
  | nil => rfl
  | cons e rest ih =>
    rw [run_cons, ih, Event.startCount_cons]
    cases e with
    | startNode name =>
      simp only [step, List.length_append, List.length_singleton, Event.isStart, if_true]
      omega
    | property name value => simp [step, Event.isStart]
    | endProperties =>
      simp only [step]
      split <;> simp [Event.isStart]
    | endNode => simp [step, Event.isStart]

/-! ## Open nodes -/

/-- The open nodes from a position up have the given paths, the youngest first. -/
inductive Opens (nodes : List DraftNode) : Option Nat → List Bytes → Prop
  | top : Opens nodes none []
  | inside {i : Nat} {n : DraftNode} {paths : List Bytes} :
      nodes[i]? = some n → Opens nodes n.parent paths → Opens nodes (some i) (n.path :: paths)

def openPaths (paths : List Bytes) : Event → List Bytes
  | .startNode name => Path.join paths.head? name :: paths
  | .property _ _ => paths
  | .endProperties => paths
  | .endNode => paths.tail

/-- Every node keeps its position, path and parent. -/
def Keeps (nodes nodes' : List DraftNode) : Prop :=
  ∀ (i : Nat) (n : DraftNode), nodes[i]? = some n →
    ∃ n' : DraftNode, nodes'[i]? = some n' ∧ n'.path = n.path ∧ n'.parent = n.parent

variable {d : Draft} {paths : List Bytes} {nodes nodes' : List DraftNode} {current : Option Nat}

theorem Opens.head? (h : Opens nodes current paths) :
    (current.bind fun i => nodes[i]?).map DraftNode.path = paths.head? := by
  cases h with
  | top => rfl
  | inside hn _ => simp [hn]

theorem Opens.path? (h : Opens d.nodes d.current paths) : d.path? = paths.head? := h.head?

/-- The end of a node opens its parent again. -/
theorem Opens.tail (h : Opens nodes current paths) :
    Opens nodes (current.bind fun i => nodes[i]?.bind DraftNode.parent) paths.tail := by
  cases h with
  | top => exact .top
  | inside hn h => simpa [hn] using h

theorem keeps_append (nodes later : List DraftNode) : Keeps nodes (nodes ++ later) := by
  intro i n hn
  refine ⟨n, ?_, rfl, rfl⟩
  rw [List.getElem?_append_left (List.getElem?_eq_some_iff.1 hn).1, hn]

theorem keeps_attach (nodes : List DraftNode) (p : Bytes × Bytes) :
    Keeps nodes (attach nodes p) := by
  intro i n hn
  unfold attach
  rw [List.getElem?_modify, hn]
  split
  · exact ⟨_, rfl, rfl, rfl⟩
  · exact ⟨_, rfl, rfl, rfl⟩

theorem Opens.mono (h : Opens nodes current paths) (hkeep : Keeps nodes nodes') :
    Opens nodes' current paths := by
  induction h with
  | top => exact .top
  | inside hn _ ih =>
    obtain ⟨n', hn', hpath, hparent⟩ := hkeep _ _ hn
    rw [← hpath]
    exact .inside hn' (hparent ▸ ih)

theorem Opens.step (h : Opens d.nodes d.current paths) (e : Event) :
    Opens (d.step e).nodes (d.step e).current (openPaths paths e) := by
  cases e with
  | startNode name =>
    have hkeep : Opens (d.step (.startNode name)).nodes d.current paths :=
      h.mono (keeps_append _ _)
    have hnew : (d.step (.startNode name)).nodes[d.nodes.length]? =
        some ⟨Path.join d.path? name, d.current, []⟩ := by
      simp [Draft.step]
    rw [h.path?] at hnew
    exact .inside hnew hkeep
  | property name value => exact h.mono (keeps_attach _ _)
  | endProperties =>
    rw [Draft.step]
    split
    · exact h
    · exact h.mono (keeps_attach _ _)
  | endNode => exact h.tail

end Draft
end Devicetree
