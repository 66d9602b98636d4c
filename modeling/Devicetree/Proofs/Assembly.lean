import Devicetree.Proofs.Device
import Devicetree.Proofs.Fidelity

/-!
# Assembly

The events of a device assemble it again. They append its nodes to a draft, each node takes its
place among the children of the one that was open before, and nothing else in the draft changes.
-/

namespace Devicetree
namespace Draft

/-- The positions of a node's children, or of the nodes without a parent. -/
def childrenOf (nodes : List DraftNode) (owner : Option Nat) : List Nat :=
  (List.range nodes.length).filter fun c => nodes[c]?.bind DraftNode.parent = owner

theorem childrenOf_concat (nodes : List DraftNode) (n : DraftNode) (owner : Option Nat) :
    childrenOf (nodes ++ [n]) owner =
      childrenOf nodes owner ++ if n.parent = owner then [nodes.length] else [] := by
  unfold childrenOf
  rw [List.length_append, List.length_singleton, List.range_succ, List.filter_append]
  congr 1
  · apply List.filter_congr
    intro c hc
    rw [List.getElem?_append_left (List.mem_range.1 hc)]
  · rw [List.filter_cons, List.filter_nil, List.getElem?_concat_length]
    simp

/-- No node is inside one that has not started. -/
structure Closed (d : Draft) : Prop where
  parent_lt : ∀ c p : Nat, d.nodes[c]?.bind DraftNode.parent = some p → p < d.nodes.length
  current_lt : ∀ c, d.current = some c → c < d.nodes.length

theorem closed_start : start.Closed := ⟨by simp [start], nofun⟩

theorem Closed.childrenOf_length {d : Draft} (h : d.Closed) :
    childrenOf d.nodes (some d.nodes.length) = [] := by
  unfold childrenOf
  rw [List.filter_eq_nil_iff]
  intro c _ hc
  exact Nat.lt_irrefl _ (h.parent_lt c _ (of_decide_eq_true hc))

@[simp] theorem attach_concat (nodes : List DraftNode) (n : DraftNode) (p : Bytes × Bytes) :
    attach (nodes ++ [n]) p = nodes ++ [{ n with properties := n.properties ++ [p] }] := by
  unfold attach
  rw [List.modify_eq_take_cons_drop (by simp)]
  simp

theorem run_properties {d : Draft} {nodes : List DraftNode} {n : DraftNode}
    (properties : List (Bytes × Bytes)) (hnodes : d.nodes = nodes ++ [n]) :
    d.run (properties.map fun p => .property p.1 p.2) =
      ⟨nodes ++ [{ n with properties := n.properties ++ properties }], d.current,
        d.isNamed || nameKey ∈ properties.map Prod.fst⟩ := by
  induction properties generalizing d n with
  | nil =>
    obtain ⟨nodes', current, isNamed⟩ := d
    obtain rfl := hnodes
    simp
  | cons p properties ih =>
    rw [List.map_cons, run_cons]
    have hstep : (d.step (.property p.1 p.2)).nodes =
        nodes ++ [{ n with properties := n.properties ++ [p] }] := by
      rw [step, hnodes, attach_concat]
    have hnamed : decide (nameKey ∈ (p :: properties).map Prod.fst) =
        (decide (p.1 = nameKey) || decide (nameKey ∈ properties.map Prod.fst)) := by
      rw [← Bool.decide_or]
      exact decide_eq_decide.2 (List.mem_cons.trans (or_congr_left eq_comm))
    rw [ih hstep, hnamed]
    simp [step, Bool.or_assoc]

theorem run_header (d : Draft) (name : Bytes) (properties : List (Bytes × Bytes)) :
    (d.run (Event.header name properties)).nodes =
      d.nodes ++ [⟨Path.join d.path? name, d.current,
        withName (Path.join d.path? name) properties⟩] ∧
    (d.run (Event.header name properties)).current = some d.nodes.length := by
  have hnodes : (d.step (.startNode name)).nodes =
      d.nodes ++ [⟨Path.join d.path? name, d.current, []⟩] := rfl
  rw [Event.header, List.cons_append, run_cons, run_append, run_properties properties hnodes,
    run_cons, run_nil]
  simp only [step, withName, Bool.false_or, decide_eq_true_eq, List.nil_append]
  split
  · exact ⟨rfl, rfl⟩
  · refine ⟨?_, rfl⟩
    simp [ownName, path?]

theorem path?_run_header (d : Draft) (name : Bytes) (properties : List (Bytes × Bytes)) :
    (d.run (Event.header name properties)).path? = some (Path.join d.path? name) := by
  obtain ⟨hnodes, hcurrent⟩ := run_header d name properties
  rw [path?, hcurrent, hnodes, Option.bind_some, List.getElem?_concat_length, Option.map_some]

theorem Closed.of_keeps {d d' : Draft} (h : d.Closed) (hlength : d'.nodes.length = d.nodes.length)
    (hkeep : Keeps d.nodes d'.nodes)
    (hcurrent : ∀ c, d'.current = some c → c < d.nodes.length) : d'.Closed := by
  constructor
  case parent_lt =>
    intro c p hp
    obtain ⟨n', hn', hparent'⟩ := Option.bind_eq_some_iff.1 hp
    have hc : c < d.nodes.length := hlength ▸ (List.getElem?_eq_some_iff.1 hn').1
    have hn : d.nodes[c]? = some d.nodes[c] := List.getElem?_eq_getElem hc
    obtain ⟨m, hm, -, hparent⟩ := hkeep c _ hn
    obtain rfl := Option.some.inj (hm.symm.trans hn')
    rw [hlength]
    apply h.parent_lt c
    rw [hn, Option.bind_some, ← hparent, hparent']
  case current_lt =>
    intro c hc
    rw [hlength]
    exact hcurrent c hc

theorem Closed.step {d : Draft} (h : d.Closed) (e : Event) : (d.step e).Closed := by
  cases e with
  | startNode name =>
    have hlength : (d.step (.startNode name)).nodes.length = d.nodes.length + 1 :=
      List.length_append
    constructor
    case parent_lt =>
      intro c p hp
      rw [hlength]
      apply Nat.lt_succ_of_lt
      simp only [Draft.step, List.getElem?_append] at hp
      split at hp
      · exact h.parent_lt c p hp
      · obtain ⟨n, hn, hparent⟩ := Option.bind_eq_some_iff.1 hp
        obtain rfl := List.mem_singleton.1 (List.mem_of_getElem? hn)
        exact h.current_lt p hparent
    case current_lt =>
      intro c hc
      obtain rfl := Option.some.inj hc
      rw [hlength]
      exact Nat.lt_succ_self _
  | property name value =>
    exact h.of_keeps (length_attach _ _) (keeps_attach _ _) h.current_lt
  | endProperties =>
    rw [Draft.step]
    split
    · exact h
    · exact h.of_keeps (length_attach _ _) (keeps_attach _ _) h.current_lt
  | endNode =>
    refine ⟨h.parent_lt, ?_⟩
    intro c hc
    obtain ⟨i, -, hi⟩ := Option.bind_eq_some_iff.1 hc
    exact h.parent_lt i c hi

theorem Closed.run {d : Draft} (h : d.Closed) (events : List Event) : (d.run events).Closed := by
  induction events generalizing d with
  | nil => exact h
  | cons e rest ih => exact ih (h.step e)

def IsDrafted (nodes : List DraftNode) (start : Nat) (path : Bytes)
    (properties : List (Bytes × Bytes)) (i : Nat) : Prop :=
  start ≤ i ∧ ∃ n, nodes[i]? = some n ∧ n.path = path ∧ n.properties = withName path properties ∧
    (properties.map Prod.fst).Nodup

/-- Devices were added, at the given positions, to the children of the node that is open. -/
structure Adds (d d' : Draft) (parent : Option Bytes) (as : List Nat) (ds : List Device) :
    Prop where
  nodes : ∃ new, d'.nodes = d.nodes ++ new
  current : d'.current = d.current
  children : ∀ owner : Option Nat, (∀ p, owner = some p → p < d.nodes.length) →
    childrenOf d'.nodes owner = childrenOf d.nodes owner ++ if d.current = owner then as else []
  matchesAll : Device.MatchesAll (IsDrafted d'.nodes d.nodes.length)
    (fun i => childrenOf d'.nodes (some i)) parent as ds

variable {d d' d'' : Draft} {parent path : Option Bytes} {as : List Nat} {ds : List Device}

theorem matchesAll_of_le {nodes : List DraftNode} {start start' : Nat} (hle : start ≤ start')
    (h : Device.MatchesAll (IsDrafted nodes start') (fun i => childrenOf nodes (some i))
      parent as ds) :
    Device.MatchesAll (IsDrafted nodes start) (fun i => childrenOf nodes (some i))
      parent as ds := by
  apply h.imp (R := Eq) _ ds (List.forall₂_refl _)
  rintro path properties i _ rfl ⟨hi, hn⟩
  exact ⟨⟨Nat.le_trans hle hi, hn⟩, List.forall₂_refl _⟩

theorem Adds.path? (h : d.Adds d' parent as ds) (hclosed : d.Closed) : d'.path? = d.path? := by
  obtain ⟨new, hnodes⟩ := h.nodes
  unfold Draft.path?
  rw [h.current, hnodes]
  cases hc : d.current with
  | none => rfl
  | some c =>
    rw [Option.bind_some, Option.bind_some, List.getElem?_append_left (hclosed.current_lt c hc)]

theorem Adds.cons {a : Nat} {dev : Device} (h : d.Adds d' parent [a] [dev])
    (h' : d'.Adds d'' parent as ds) (hclosed : d.Closed) :
    d.Adds d'' parent (a :: as) (dev :: ds) := by
  obtain ⟨new, hnodes⟩ := h.nodes
  obtain ⟨later, hnodes'⟩ := h'.nodes
  have hle : d.nodes.length ≤ d'.nodes.length := by
    rw [hnodes, List.length_append]
    exact Nat.le_add_right _ _
  constructor
  case nodes =>
    refine ⟨new ++ later, ?_⟩
    rw [hnodes', hnodes, List.append_assoc]
  case current => exact h'.current.trans h.current
  case children =>
    intro owner howner
    rw [h'.children owner fun p hp => Nat.lt_of_lt_of_le (howner p hp) hle,
      h.children owner howner, h.current]
    by_cases hc : d.current = owner <;> simp [hc]
  case matchesAll =>
    obtain ⟨_, _, heq, hdev, -⟩ := h.matchesAll
    obtain ⟨rfl, -⟩ := List.cons.inj heq
    refine ⟨a, as, rfl, hdev.imp (R := Eq) ?_ dev rfl, matchesAll_of_le hle h'.matchesAll⟩
    rintro path properties i _ rfl ⟨hi, n, hn, hlabel⟩
    have hlt := (List.getElem?_eq_some_iff.1 hn).1
    have hcurrent : d'.current ≠ some i := by
      rw [h.current]
      exact fun hc => Nat.lt_irrefl i (Nat.lt_of_lt_of_le (hclosed.current_lt i hc) hi)
    refine ⟨⟨hi, n, ?_, hlabel⟩, ?_⟩
    · rw [hnodes', List.getElem?_append_left hlt, hn]
    · rw [h'.children (some i) (by rintro _ ⟨⟩; exact hlt), if_neg hcurrent, List.append_nil]
      exact List.forall₂_refl _

/-- The end of a node makes it one of the children of the node that was open before. -/
theorem Adds.endNode {name : Bytes} {properties : List (Bytes × Bytes)} (h : d'.Adds d'' path as ds)
    (hclosed : d.Closed) (hnodup : (properties.map Prod.fst).Nodup)
    (hpath : path = some (Path.below parent name))
    (hnodes : d'.nodes = d.nodes ++ [⟨Path.below parent name, d.current,
      withName (Path.below parent name) properties⟩])
    (hcurrent : d'.current = some d.nodes.length) :
    d.Adds (d''.step .endNode) parent [d.nodes.length] [.mk name properties ds] := by
  obtain ⟨⟨new, hnodes'⟩, hcurrent', hchildren, hmatches⟩ := h
  have hlength : d'.nodes.length = d.nodes.length + 1 := by
    rw [hnodes, List.length_append, List.length_singleton]
  have hnode : d''.nodes[d.nodes.length]? = some ⟨Path.below parent name, d.current,
      withName (Path.below parent name) properties⟩ := by
    rw [hnodes', hnodes, List.append_assoc, List.getElem?_append_right (Nat.le_refl _),
      Nat.sub_self]
    rfl
  have hlast : childrenOf d''.nodes (some d.nodes.length) = as := by
    have hself : d.current ≠ some d.nodes.length := fun hc =>
      Nat.lt_irrefl _ (hclosed.current_lt _ hc)
    rw [hchildren _ (by rintro _ ⟨⟩; exact hlength ▸ Nat.lt_succ_self _), hnodes,
      childrenOf_concat, hclosed.childrenOf_length, if_neg hself, if_pos hcurrent]
    rfl
  constructor
  case nodes =>
    rw [hnodes, List.append_assoc] at hnodes'
    exact ⟨_, hnodes'⟩
  case current => simp only [step, hcurrent', hcurrent, Option.bind_some, hnode]
  case children =>
    intro owner howner
    have hne : d'.current ≠ owner := by
      rw [hcurrent]
      exact fun hc => Nat.lt_irrefl _ (howner _ hc.symm)
    have howner' : ∀ p, owner = some p → p < d'.nodes.length := by
      intro p hp
      rw [hlength]
      exact Nat.lt_succ_of_lt (howner p hp)
    apply (hchildren owner howner').trans
    rw [hnodes, childrenOf_concat, if_neg hne, List.append_nil]
  case matchesAll =>
    refine ⟨d.nodes.length, [], rfl, ⟨?_, ?_⟩, rfl⟩
    · exact ⟨Nat.le_refl _, _, hnode, rfl, rfl, hnodup⟩
    · rw [hpath, hlength] at hmatches
      subst hlast
      exact matchesAll_of_le (Nat.le_succ _) hmatches

mutual

theorem adds_events (legacy : Bool) (dev : Device) {d : Draft} {parent : Option Bytes}
    (hvalid : dev.Valid) (hclosed : d.Closed) (hpath : d.path? = parent)
    (hslash : ∀ path, parent = some path → path.head? = some Path.slash) :
    d.Adds (d.run (dev.events legacy parent)) parent [d.nodes.length] [dev] := by
  obtain ⟨name, properties, ds⟩ := dev
  obtain ⟨hname, hnodup, hds⟩ := hvalid
  obtain ⟨hnodes, hcurrent⟩ := run_header d (Device.spelling legacy parent name) properties
  rw [hpath, Device.join_spelling legacy hname hslash] at hnodes
  have hheader := path?_run_header d (Device.spelling legacy parent name) properties
  rw [hpath, Device.join_spelling legacy hname hslash] at hheader
  obtain ⟨as, has⟩ := adds_eventsAll legacy ds hds (hclosed.run _) hheader
    (by rintro _ ⟨⟩; exact Path.head?_below name hslash)
  rw [Device.events, run_append, run_append]
  exact has.endNode hclosed hnodup rfl hnodes hcurrent

theorem adds_eventsAll (legacy : Bool) (ds : List Device) {d : Draft} {parent : Option Bytes}
    (hvalid : ∀ dev ∈ ds, dev.Valid) (hclosed : d.Closed) (hpath : d.path? = parent)
    (hslash : ∀ path, parent = some path → path.head? = some Path.slash) :
    ∃ as, d.Adds (d.run (Device.eventsAll legacy parent ds)) parent as ds := by
  match ds with
  | [] =>
    have hnone : d.run (Device.eventsAll legacy parent []) = d := rfl
    rw [hnone]
    exact ⟨[], ⟨[], (List.append_nil _).symm⟩, rfl, fun p _ => by simp, rfl⟩
  | dev :: ds =>
    have hdev := adds_events legacy dev (hvalid dev List.mem_cons_self) hclosed hpath hslash
    obtain ⟨as, has⟩ := adds_eventsAll legacy ds
      (fun dev' h => hvalid dev' (List.mem_cons_of_mem _ h)) (hclosed.run _)
      ((hdev.path? hclosed).trans hpath) hslash
    rw [Device.eventsAll, run_append]
    exact ⟨_, hdev.cons has hclosed⟩

end

/-! ## Demands -/

theorem demands_append (d : Draft) (first rest : List Event) :
    d.demands (first ++ rest) = d.demands first ++ (d.run first).demands rest := by
  induction first generalizing d with
  | nil => rfl
  | cons e first ih =>
    rw [List.cons_append, demands, demands, ih, run_cons, List.append_assoc]

theorem demands_properties (d : Draft) (properties : List (Bytes × Bytes)) :
    d.demands (properties.map fun p => .property p.1 p.2) =
      properties.map fun _ => propertyRecordSize := by
  induction properties generalizing d with
  | nil => rfl
  | cons p properties ih =>
    rw [List.map_cons, List.map_cons, demands, ih]
    rfl

theorem demands_header (d : Draft) (name : Bytes) (properties : List (Bytes × Bytes)) :
    d.demands (Event.header name properties) =
      (nodeRecordSize + (Path.join d.path? name).length) ::
        (properties.map fun _ => propertyRecordSize) ++
        if nameKey ∈ properties.map Prod.fst then []
        else [propertyRecordSize + ((Path.shortName (Path.join d.path? name)).length + 1)] := by
  have hnodes : (d.step (.startNode name)).nodes =
      d.nodes ++ [⟨Path.join d.path? name, d.current, []⟩] := rfl
  rw [Event.header, List.cons_append, demands, demands_append, demands_properties,
    run_properties properties hnodes]
  simp only [demands, demand, step, Bool.false_or, decide_eq_true_eq]
  split
  · simp
  · simp [ownName, path?]

mutual

theorem demands_events (legacy : Bool) (dev : Device) {d : Draft} {parent : Option Bytes}
    (hvalid : dev.Valid) (hclosed : d.Closed) (hpath : d.path? = parent)
    (hslash : ∀ path, parent = some path → path.head? = some Path.slash) :
    d.demands (dev.events legacy parent) = dev.lengths parent := by
  obtain ⟨name, properties, ds⟩ := dev
  obtain ⟨hname, -, hds⟩ := hvalid
  have hheader := path?_run_header d (Device.spelling legacy parent name) properties
  rw [hpath, Device.join_spelling legacy hname hslash] at hheader
  have hall := demands_eventsAll legacy ds hds (hclosed.run _) hheader
    (by rintro _ ⟨⟩; exact Path.head?_below name hslash)
  rw [Device.events, demands_append, demands_header, demands_append, hall, hpath,
    Device.join_spelling legacy hname hslash]
  simp [Device.lengths, demands, demand]

theorem demands_eventsAll (legacy : Bool) (ds : List Device) {d : Draft} {parent : Option Bytes}
    (hvalid : ∀ dev ∈ ds, dev.Valid) (hclosed : d.Closed) (hpath : d.path? = parent)
    (hslash : ∀ path, parent = some path → path.head? = some Path.slash) :
    d.demands (Device.eventsAll legacy parent ds) = Device.lengthsAll parent ds := by
  match ds with
  | [] => rfl
  | dev :: ds =>
    have hdev := hvalid dev List.mem_cons_self
    have hadds := adds_events legacy dev hdev hclosed hpath hslash
    rw [Device.eventsAll, Device.lengthsAll, demands_append,
      demands_events legacy dev hdev hclosed hpath hslash,
      demands_eventsAll legacy ds (fun dev' h => hvalid dev' (List.mem_cons_of_mem _ h))
        (hclosed.run _) ((hadds.path? hclosed).trans hpath) hslash]

end

end Draft
end Devicetree
