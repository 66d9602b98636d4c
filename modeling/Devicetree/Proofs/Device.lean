import Devicetree.Outline
import Devicetree.Record
import Mathlib.Data.List.Forall2

/-!
# Devices

A tree as its author has it in mind: nodes with a name of their own, properties and children in
order. Modern blobs spell a node by that name and legacy blobs by its path; either way the node
has the path that its place in the tree gives it.
-/

namespace Devicetree

inductive Device where
  | mk (name : Bytes) (properties : List (Bytes × Bytes)) (children : List Device)

/-- The events of a node before those of its children. -/
def Event.header (name : Bytes) (properties : List (Bytes × Bytes)) : List Event :=
  .startNode name :: (properties.map fun p => .property p.1 p.2) ++ [.endProperties]

def Path.below (parent : Option Bytes) (name : Bytes) : Bytes :=
  parent.elim root fun path => (if path = root then [] else path) ++ slash :: name

theorem Path.head?_below {parent : Option Bytes} (name : Bytes)
    (hparent : ∀ path, parent = some path → path.head? = some slash) :
    (below parent name).head? = some slash := by
  unfold below
  cases parent with
  | none => rfl
  | some path =>
    by_cases hroot : path = root
    · simp [hroot]
    · simp [hroot, hparent path rfl]

/-- A node's properties with one for its name, added if it has none. -/
def withName (path : Bytes) (properties : List (Bytes × Bytes)) : List (Bytes × Bytes) :=
  if nameKey ∈ properties.map Prod.fst then properties
  else properties ++ [(nameKey, Path.shortName path ++ [0])]

namespace Device

/-- Names of nodes do not look like paths, and no node has two properties of one name. -/
inductive Valid : Device → Prop
  | mk {name : Bytes} {properties : List (Bytes × Bytes)} {children : List Device} :
    name.head? ≠ some Path.slash → (properties.map Prod.fst).Nodup →
    (∀ d ∈ children, Valid d) → Valid (mk name properties children)

def spelling (legacy : Bool) (parent : Option Bytes) (name : Bytes) : Bytes :=
  if legacy then Path.below parent name else name

/-- Either spelling gives a node the path that its place calls for. -/
theorem join_spelling (legacy : Bool) {parent : Option Bytes} {name : Bytes}
    (hname : name.head? ≠ some Path.slash)
    (hparent : ∀ path, parent = some path → path.head? = some Path.slash) :
    Path.join parent (spelling legacy parent name) = Path.below parent name := by
  unfold spelling
  cases legacy with
  | true =>
    have hslash := Path.head?_below name hparent
    rw [if_pos rfl]
    unfold Path.join
    rw [if_pos hslash]
  | false =>
    rw [if_neg nofun]
    unfold Path.join
    rw [if_neg hname]
    cases parent <;> rfl

mutual

def events (legacy : Bool) (parent : Option Bytes) : Device → List Event
  | mk name properties children =>
    Event.header (spelling legacy parent name) properties ++
      (eventsAll legacy (some (Path.below parent name)) children ++ [.endNode])

def eventsAll (legacy : Bool) (parent : Option Bytes) : List Device → List Event
  | [] => []
  | d :: rest => d.events legacy parent ++ eventsAll legacy parent rest

end

mutual

def lengths (parent : Option Bytes) : Device → List Nat
  | mk name properties children =>
    let path := Path.below parent name
    (nodeRecordSize + path.length) :: (properties.map fun _ => propertyRecordSize) ++
      (if nameKey ∈ properties.map Prod.fst then []
        else [propertyRecordSize + ((Path.shortName path).length + 1)]) ++
      lengthsAll (some path) children

def lengthsAll (parent : Option Bytes) : List Device → List Nat
  | [] => []
  | d :: rest => d.lengths parent ++ lengthsAll parent rest

end

variable {α : Type}

mutual

/-- The tree that grows from `a` has the shape of a device, and every node in it is labelled with
the path and the properties it should have. -/
def Matches (label : Bytes → List (Bytes × Bytes) → α → Prop) (children : α → List α)
    (parent : Option Bytes) (a : α) : Device → Prop
  | mk name properties ds =>
    label (Path.below parent name) properties a ∧
      MatchesAll label children (some (Path.below parent name)) (children a) ds

def MatchesAll (label : Bytes → List (Bytes × Bytes) → α → Prop) (children : α → List α)
    (parent : Option Bytes) (as : List α) : List Device → Prop
  | [] => as = []
  | d :: ds => ∃ a rest, as = a :: rest ∧ d.Matches label children parent a ∧
      MatchesAll label children parent rest ds

end

section Matches

variable {β : Type} {R : α → β → Prop} {label : Bytes → List (Bytes × Bytes) → α → Prop}
  {label' : Bytes → List (Bytes × Bytes) → β → Prop} {children : α → List α}
  {children' : β → List β} {parent : Option Bytes}

mutual

/-- The shape can be found again in another structure whose parts correspond. -/
theorem Matches.imp
    (h : ∀ path properties a b, R a b → label path properties a →
      label' path properties b ∧ List.Forall₂ R (children a) (children' b))
    (d : Device) {parent : Option Bytes} {a : α} {b : β} (hab : R a b)
    (hd : d.Matches label children parent a) : d.Matches label' children' parent b := by
  obtain ⟨name, properties, ds⟩ := d
  obtain ⟨hlabel, hds⟩ := hd
  obtain ⟨hlabel', hchildren⟩ := h _ _ a b hab hlabel
  exact ⟨hlabel', MatchesAll.imp h ds hchildren hds⟩

theorem MatchesAll.imp
    (h : ∀ path properties a b, R a b → label path properties a →
      label' path properties b ∧ List.Forall₂ R (children a) (children' b))
    (ds : List Device) {parent : Option Bytes} {as : List α} {bs : List β}
    (hab : List.Forall₂ R as bs) (hds : MatchesAll label children parent as ds) :
    MatchesAll label' children' parent bs ds := by
  match ds with
  | [] =>
    obtain rfl := hds
    exact List.forall₂_nil_left_iff.1 hab
  | d :: rest =>
    obtain ⟨a, as, rfl, hd, hrest⟩ := hds
    obtain ⟨b, bs, hb, hbs, rfl⟩ := List.forall₂_cons_left_iff.1 hab
    exact ⟨b, bs, rfl, Matches.imp h d hb hd, MatchesAll.imp h rest hbs hrest⟩

end

end Matches
end Device

/-! ## Outlines of devices -/

/-- The token says what the event says. An offset stands for each of its names. -/
inductive Event.IsSpelled (names : UInt32 → Bytes → Prop) : Event → Token → Prop
  | startNode {name : Bytes} : IsSpelled names (.startNode name) (.beginNode name)
  | property {nameOffset : UInt32} {name value : Bytes} : names nameOffset name →
    IsSpelled names (.property name value) (.property nameOffset value)
  | endNode : IsSpelled names .endNode .endNode

namespace Outline

/-- The events can follow in a complete outline from a place on. -/
inductive Completes : Place → List Event → Prop
  | nil : Completes .body []
  | root {name : Bytes} {rest : List Event} : Completes .header rest →
    Completes .start (.startNode name :: rest)
  | property {name value : Bytes} {rest : List Event} : Completes .header rest →
    Completes .header (.property name value :: rest)
  | endProperties {rest : List Event} : Completes .body rest →
    Completes .header (.endProperties :: rest)
  | startNode {name : Bytes} {rest : List Event} : Completes .header rest →
    Completes .body (.startNode name :: rest)
  | endNode {rest : List Event} : Completes .body rest → Completes .body (.endNode :: rest)

variable {nameAt : UInt32 → Except Error Bytes} {names : UInt32 → Bytes → Prop} {place : Place}
  {events : List Event} {tokens : List Token}

theorem ofTokens_filter (nameAt : UInt32 → Except Error Bytes) (outcome : Except Error Unit)
    (place : Place) (tokens : List Token) :
    ofTokens nameAt outcome place (tokens.filter (· ≠ .nop)) =
      ofTokens nameAt outcome place tokens := by
  fun_induction ofTokens nameAt outcome place tokens <;> simp_all [ofTokens]

theorem ofTokens_header {rest : List Event} (hrest : Completes .body rest)
    (hspelled : List.Forall₂ (Event.IsSpelled names) (rest.filter (· ≠ .endProperties)) tokens) :
    ofTokens nameAt (.ok ()) .header tokens =
      cons .endProperties (ofTokens nameAt (.ok ()) .body tokens) := by
  cases hrest with
  | nil =>
    cases hspelled
    rfl
  | startNode _ =>
    cases hspelled with
    | cons ht _ =>
      cases ht
      rfl
  | endNode _ =>
    cases hspelled with
    | cons ht _ =>
      cases ht
      rfl

/-- Tokens that spell a complete outline are read as that outline. -/
theorem ofTokens_of_isSpelled (hevents : Completes place events)
    (hspelled : List.Forall₂ (Event.IsSpelled names) (events.filter (· ≠ .endProperties)) tokens)
    (hnames : ∀ off name, names off name → nameAt off = .ok name) :
    ofTokens nameAt (.ok ()) place tokens = ⟨events, .complete⟩ := by
  induction hevents generalizing tokens with
  | nil =>
    cases hspelled
    rfl
  | root _ ih =>
    cases hspelled with
    | cons ht hrest =>
      cases ht
      rw [ofTokens, ih hrest, cons]
  | property _ ih =>
    cases hspelled with
    | cons ht hrest =>
      cases ht with
      | property hname =>
        rw [ofTokens, hnames _ _ hname]
        simp only [ih hrest, cons]
  | endProperties hrest ih =>
    rw [ofTokens_header hrest hspelled, ih hspelled, cons]
  | startNode _ ih =>
    cases hspelled with
    | cons ht hrest =>
      cases ht
      rw [ofTokens, ih hrest, cons]
  | endNode _ ih =>
    cases hspelled with
    | cons ht hrest =>
      cases ht
      rw [ofTokens, ih hrest, cons]

end Outline
namespace Device

open Outline

theorem completes_properties (properties : List (Bytes × Bytes)) {rest : List Event}
    (hrest : Completes .body rest) :
    Completes .header (properties.map (fun p => .property p.1 p.2) ++ .endProperties :: rest) := by
  induction properties with
  | nil => exact .endProperties hrest
  | cons p properties ih => exact .property ih

mutual

theorem completes_events (legacy : Bool) (parent : Option Bytes) (d : Device)
    {rest : List Event} (hrest : Completes .body rest) :
    ∃ name later, d.events legacy parent ++ rest = .startNode name :: later ∧
      Completes .header later := by
  obtain ⟨name, properties, ds⟩ := d
  have hds := completes_eventsAll legacy (some (Path.below parent name)) ds (.endNode hrest)
  refine ⟨spelling legacy parent name, _, ?_, completes_properties properties hds⟩
  simp [events, Event.header]

theorem completes_eventsAll (legacy : Bool) (parent : Option Bytes) (ds : List Device)
    {rest : List Event} (hrest : Completes .body rest) :
    Completes .body (eventsAll legacy parent ds ++ rest) := by
  match ds with
  | [] => exact hrest
  | d :: ds =>
    obtain ⟨name, later, hevents, hlater⟩ :=
      completes_events legacy parent d (completes_eventsAll legacy parent ds hrest)
    rw [eventsAll, List.append_assoc, hevents]
    exact .startNode hlater

end

theorem completes (legacy : Bool) (d : Device) : Completes .start (d.events legacy none) := by
  obtain ⟨name, later, hevents, hlater⟩ := d.completes_events legacy none .nil
  rw [List.append_nil] at hevents
  rw [hevents]
  exact .root hlater

end Device
end Devicetree
