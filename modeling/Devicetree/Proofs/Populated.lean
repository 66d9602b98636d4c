import Devicetree.Build.Populate
import Devicetree.Proofs.Outline

/-!
# What populating does

The populating pass writes the draft of its outline into the block: without links and offsets, its
records are the draft, and their intervals are the reservations of the draft. It gets through an
outline if every record can be placed and stays inside the block.
-/

namespace Devicetree

/-- What a record says about its node, without its place and its links to later nodes. -/
def NodeRecord.draft (r : NodeRecord) : DraftNode :=
  ⟨r.path, r.parent, r.properties.map fun p => (p.name, p.value)⟩

theorem map_modify {α β : Type} {f : α → α} {g : α → β} (f' : β → β)
    (h : ∀ a, g (f a) = f' (g a)) (l : List α) (i : Nat) :
    (l.modify i f).map g = (l.map g).modify i f' := by
  apply List.ext_getElem?
  intro j
  simp only [List.getElem?_map, List.getElem?_modify]
  cases l[j]? with
  | none => rfl
  | some a =>
    by_cases hij : i = j
    · simp [hij, h]
    · simp [hij]

/-- A view of records that does not see links. -/
def NodeRecord.IgnoresLinks {β : Type} (view : NodeRecord → β) : Prop :=
  ∀ (r : NodeRecord) (firstChild lastChild nextSibling next : Option Nat),
    view { r with firstChild, lastChild, nextSibling, next } = view r

def NodeRecord.content (r : NodeRecord) : NodeRecord :=
  { r with firstChild := none, lastChild := none, nextSibling := none, next := none }

theorem NodeRecord.ignoresLinks_content : IgnoresLinks content := fun _ _ _ _ _ => rfl

theorem NodeRecord.ignoresLinks_draft : IgnoresLinks draft := fun _ _ _ _ _ => rfl

theorem NodeRecord.ignoresLinks_intervals : IgnoresLinks intervals := fun _ _ _ _ _ => rfl

@[simp] theorem NodeRecord.addProperty_properties (r : NodeRecord) (p : PropertyRecord) :
    (r.addProperty p).properties = r.properties ++ [p] := by
  unfold addProperty
  dsimp only
  split
  · rfl
  · split
    · rfl
    · split <;> rfl

theorem NodeRecord.draft_addProperty (r : NodeRecord) (p : PropertyRecord) :
    (r.addProperty p).draft =
      { r.draft with properties := r.draft.properties ++ [(p.name, p.value)] } := by
  have hpath : (r.addProperty p).path = r.path := by
    unfold addProperty
    dsimp only
    repeat' split
    all_goals rfl
  have hparent : (r.addProperty p).parent = r.parent := by
    unfold addProperty
    dsimp only
    repeat' split
    all_goals rfl
  simp [draft, hpath, hparent]

theorem NodeRecord.intervals_addProperty (r : NodeRecord) (p : PropertyRecord) :
    (r.addProperty p).intervals = r.intervals ++ [p.interval] := by
  have hdraft := r.draft_addProperty p
  have hoffset : (r.addProperty p).offset = r.offset := by
    unfold addProperty
    dsimp only
    repeat' split
    all_goals rfl
  have hpath : (r.addProperty p).path = r.path := congrArg DraftNode.path hdraft
  simp [intervals, interval, hoffset, hpath]

namespace Build
namespace Populating

variable {records : List NodeRecord}

theorem map_link {β : Type} {view : NodeRecord → β} (h : NodeRecord.IgnoresLinks view)
    (records : List NodeRecord) (parent i : Nat) :
    (link records parent i).map view = records.map view := by
  have hmodify : ∀ (l : List NodeRecord) (j : Nat) (f : NodeRecord → NodeRecord),
      (∀ r, view (f r) = view r) → (l.modify j f).map view = l.map view := fun l j f hf => by
    rw [map_modify id hf, List.modify_id]
  unfold link
  rw [hmodify]
  · split
    · exact hmodify _ _ _ fun r => h r _ _ _ _
    · exact hmodify _ _ _ fun r => h r _ _ _ _
  · exact fun r => h r _ _ _ _

theorem map_chain {β : Type} {view : NodeRecord → β} (h : NodeRecord.IgnoresLinks view)
    (records : List NodeRecord) (previous i : Nat) :
    (chain records previous i).map view = records.map view := by
  unfold chain
  rw [map_modify id fun r => h r _ _ _ _, List.modify_id]

theorem map_append {β : Type} {view : NodeRecord → β} (h : NodeRecord.IgnoresLinks view)
    (records : List NodeRecord) (offset : UInt32) (path : Bytes) (parent last : Option Nat) :
    (append records offset path parent last).map view =
      records.map view ++ [view (.leaf offset path parent)] := by
  unfold append
  cases parent <;> cases last <;> simp [map_link h, map_chain h]

@[simp] theorem length_append (records : List NodeRecord) (offset : UInt32) (path : Bytes)
    (parent last : Option Nat) :
    (append records offset path parent last).length = records.length + 1 := by
  simpa using congrArg List.length
    (map_append NodeRecord.ignoresLinks_draft records offset path parent last)

theorem map_draft_attach (records : List NodeRecord) (p : PropertyRecord) :
    (attach records p).map NodeRecord.draft =
      Draft.attach (records.map NodeRecord.draft) (p.name, p.value) := by
  unfold attach Draft.attach
  rw [List.length_map]
  exact map_modify _ (fun r => r.draft_addProperty p) records _

theorem flatMap_intervals_attach (hne : records ≠ []) (p : PropertyRecord) :
    (attach records p).flatMap NodeRecord.intervals =
      records.flatMap NodeRecord.intervals ++ [p.interval] := by
  have hpos := List.length_pos_iff.2 hne
  obtain ⟨before, r, after, hrecords, hlength, hmodify⟩ :=
    List.exists_of_modify (fun r => NodeRecord.addProperty r p)
      (show records.length - 1 < records.length by omega)
  obtain rfl : after = [] := by
    have := congrArg List.length hrecords
    simp only [List.length_append, List.length_cons] at this
    exact List.length_eq_zero_iff.1 (by omega)
  have hflat := congrArg (List.flatMap NodeRecord.intervals) hrecords
  unfold attach
  rw [hmodify, hflat]
  simp [NodeRecord.intervals_addProperty]

def draft (p : Populating) : Draft := ⟨p.records.map NodeRecord.draft, p.current, p.isNamed⟩

def intervals (p : Populating) : List Interval := p.records.flatMap NodeRecord.intervals

variable {p q : Populating} {c : Cursor} {e : Event} {events : List Event}
  {new : List Interval} {size length : Nat} {off : UInt32}

theorem map_path_draft (p : Populating) (link : Option Nat) :
    (link.bind fun i => p.draft.nodes[i]?).map DraftNode.path =
      (link.bind fun i => p.records[i]?).map NodeRecord.path := by
  unfold draft
  cases link with
  | none => rfl
  | some i =>
    cases hr : p.records[i]? with
    | none => simp [hr]
    | some r => simp [hr, NodeRecord.draft]

@[simp] theorem path?_draft (p : Populating) : p.draft.path? = p.path? :=
  p.map_path_draft p.current

theorem reserve_eq_ok (hr : p.reserve size length = .ok (off, q)) :
    ∃ i c, p.cursor.reserveRecord length = some (i, c) ∧ i = ⟨off, length⟩ ∧
      q = { p with cursor := c } ∧ i.stop ≤ size + markSize := by
  unfold reserve at hr
  split at hr
  · contradiction
  · rename_i i c hrec
    split at hr
    · rename_i hstop
      cases hr
      have hlength := Cursor.length_of_reserveRecord hrec
      exact ⟨i, c, hrec, by rw [← hlength], rfl, hstop⟩
    · contradiction

theorem reserve_of_reserveRecord {i : Interval} (hrec : p.cursor.reserveRecord length = some (i, c))
    (hstop : i.stop ≤ size + markSize) :
    p.reserve size length = .ok (i.offset, { p with cursor := c }) := by
  simp [reserve, hrec, hstop]

/-- What a step does if it succeeds. It reserves the record that its event calls for inside the
block. -/
inductive Steps (p : Populating) (size : Nat) : Event → Populating → Prop
  | startNode {name : Bytes} {i : Interval} {c : Cursor} :
    p.cursor.reserveRecord (nodeRecordSize + (Path.join p.path? name).length) = some (i, c) →
    i.stop ≤ size + markSize →
    Steps p size (.startNode name)
      { cursor := c
        records := append p.records i.offset (Path.join p.path? name) p.current p.last
        current := some p.records.length
        last := some p.records.length
        nodeCount := p.nodeCount + 1
        isNamed := false }
  | property {name value : Bytes} {i : Interval} {c : Cursor} :
    p.cursor.reserveRecord propertyRecordSize = some (i, c) → i.stop ≤ size + markSize →
    Steps p size (.property name value)
      { p with
        cursor := c
        records := attach p.records ⟨i.offset, name, value, false⟩
        isNamed := p.isNamed || name = nameKey }
  | endProperties {i : Interval} {c : Cursor} : p.isNamed = false →
    p.cursor.reserveRecord (propertyRecordSize + p.draft.ownName.length) = some (i, c) →
    i.stop ≤ size + markSize →
    Steps p size .endProperties
      { p with
        cursor := c
        records := attach p.records ⟨i.offset, nameKey, p.draft.ownName, true⟩ }
  | endProperties_of_isNamed : p.isNamed = true → Steps p size .endProperties p
  | endNode : Steps p size .endNode p.endNode

theorem step_eq_ok_iff : p.step size e = .ok q ↔ p.Steps size e q := by
  have hname : Path.shortName (p.path?.getD []) ++ [0] = p.draft.ownName := by
    rw [Draft.ownName, path?_draft]
  constructor
  · intro hs
    cases e with
    | startNode name =>
      simp only [step, startNode] at hs
      split at hs
      · contradiction
      · rename_i hr
        obtain ⟨i, c, hrec, rfl, rfl, hstop⟩ := reserve_eq_ok hr
        cases hs
        exact .startNode hrec hstop
    | property name value =>
      simp only [step, addProperty] at hs
      split at hs
      · contradiction
      · rename_i hr
        obtain ⟨i, c, hrec, rfl, rfl, hstop⟩ := reserve_eq_ok hr
        cases hs
        exact .property hrec hstop
    | endProperties =>
      simp only [step, endProperties, hname] at hs
      split at hs
      · rename_i hisNamed
        cases hs
        exact .endProperties_of_isNamed hisNamed
      · rename_i hisNamed
        split at hs
        · contradiction
        · rename_i hr
          obtain ⟨i, c, hrec, rfl, rfl, hstop⟩ := reserve_eq_ok hr
          cases hs
          exact .endProperties (Bool.eq_false_iff.2 hisNamed) hrec hstop
    | endNode =>
      cases hs
      exact .endNode
  · intro h
    cases h with
    | startNode hrec hstop => simp only [step, startNode, reserve_of_reserveRecord hrec hstop]
    | property hrec hstop => simp only [step, addProperty, reserve_of_reserveRecord hrec hstop]
    | endProperties hisNamed hrec hstop =>
      simp only [step, endProperties, hname, hisNamed, reserve_of_reserveRecord hrec hstop]
      rfl
    | endProperties_of_isNamed hisNamed => simp only [step, endProperties, hisNamed, if_true]
    | endNode => rfl

structure Kept (p : Populating) (size : Nat) (e : Event) (q : Populating) : Prop where
  draft : q.draft = p.draft.step e
  reserved : ∃ new, p.draft.reserve? p.cursor e = some (new, q.cursor) ∧
    q.intervals = p.intervals ++ new ∧ ∀ i ∈ new, i.stop ≤ size + markSize
  nodeCount : q.nodeCount = p.nodeCount + if e.isStart then 1 else 0

theorem draft_of_steps (h : p.Steps size e q) : q.draft = p.draft.step e := by
  cases h with
  | startNode _ _ =>
    have hpath := p.path?_draft
    unfold draft at hpath
    simp [draft, Draft.step, map_append NodeRecord.ignoresLinks_draft, hpath, NodeRecord.draft,
      NodeRecord.leaf]
  | property _ _ => simp [draft, Draft.step, map_draft_attach]
  | endProperties hisNamed _ _ =>
    have hname : p.draft.isNamed = false := hisNamed
    simp only [Draft.step, hname, Bool.false_eq_true, if_false]
    simp [draft, map_draft_attach, hisNamed]
  | endProperties_of_isNamed hisNamed => simp [draft, Draft.step, hisNamed]
  | endNode =>
    have hparent : ∀ i : Nat, (p.records[i]?.map NodeRecord.draft).bind DraftNode.parent =
        p.records[i]?.bind NodeRecord.parent := by
      intro i
      cases p.records[i]? <;> rfl
    simp [draft, endNode, Draft.step, hparent]

/-- The record that a property is added to has to be there. -/
theorem kept_of_steps (hne : p.records ≠ [] ∨ e.isStart = true) (h : p.Steps size e q) :
    p.Kept size e q := by
  refine ⟨draft_of_steps h, ?_, ?_⟩
  · cases h with
    | @startNode name i c hrec hstop =>
      have hlength := Cursor.length_of_reserveRecord hrec
      refine ⟨[i], ?_, ?_, by simpa using hstop⟩
      · simp [Draft.reserve?, Draft.demand, hrec]
      · unfold intervals
        rw [List.flatMap_def, List.flatMap_def, map_append NodeRecord.ignoresLinks_intervals]
        simp [NodeRecord.intervals, NodeRecord.interval, NodeRecord.leaf, ← hlength]
    | @property name value i c hrec hstop =>
      have hlength := Cursor.length_of_reserveRecord hrec
      refine ⟨[i], ?_, ?_, by simpa using hstop⟩
      · simp [Draft.reserve?, Draft.demand, hrec]
      · refine (flatMap_intervals_attach (hne.resolve_right Bool.false_ne_true) _).trans ?_
        simp [PropertyRecord.interval, ← hlength, intervals]
    | @endProperties i c hisNamed hrec hstop =>
      have hname : p.draft.isNamed = false := hisNamed
      have hlength := Cursor.length_of_reserveRecord hrec
      refine ⟨[i], ?_, ?_, by simpa using hstop⟩
      · simp [Draft.reserve?, Draft.demand, hname, hrec]
      · refine (flatMap_intervals_attach (hne.resolve_right Bool.false_ne_true) _).trans ?_
        simp [PropertyRecord.interval, ← hlength, intervals]
    | endProperties_of_isNamed hisNamed =>
      have hname : p.draft.isNamed = true := hisNamed
      exact ⟨[], by simp [Draft.reserve?, Draft.demand, hname], by simp, by simp⟩
    | endNode => exact ⟨[], rfl, by simp [endNode, intervals], by simp⟩
  · cases h <;> rfl

theorem exists_step (hr : p.draft.reserve? p.cursor e = some (new, c))
    (hstop : ∀ i ∈ new, i.stop ≤ size + markSize) : ∃ q, p.step size e = .ok q := by
  have hpath := p.path?_draft
  simp only [step_eq_ok_iff]
  cases e with
  | startNode name =>
    obtain ⟨⟨i, c'⟩, hrec, heq⟩ := Option.map_eq_some_iff.1 hr
    cases heq
    rw [hpath] at hrec
    exact ⟨_, .startNode hrec (hstop i (by simp))⟩
  | property name value =>
    obtain ⟨⟨i, c'⟩, hrec, heq⟩ := Option.map_eq_some_iff.1 hr
    cases heq
    exact ⟨_, .property hrec (hstop i (by simp))⟩
  | endProperties =>
    cases hisNamed : p.isNamed with
    | true => exact ⟨_, .endProperties_of_isNamed hisNamed⟩
    | false =>
      have hname : p.draft.isNamed = false := hisNamed
      simp only [Draft.reserve?, Draft.demand, hname, Bool.false_eq_true, if_false] at hr
      obtain ⟨⟨i, c'⟩, hrec, heq⟩ := Option.map_eq_some_iff.1 hr
      cases heq
      exact ⟨_, .endProperties hisNamed hrec (hstop i (by simp))⟩
  | endNode => exact ⟨_, .endNode⟩

theorem run_cons_eq_ok :
    p.run size (e :: events) = .ok q ↔
      ∃ p', p.step size e = .ok p' ∧ p'.run size events = .ok q := by
  rw [run]
  split
  · rename_i hs
    simp [hs]
  · rename_i p' hs
    simp [hs]

theorem records_ne_nil_of_kept (hk : p.Kept size e q) (hne : p.records ≠ [] ∨ e.isStart = true) :
    q.records ≠ [] := by
  have hlength : q.records.length = (p.draft.step e).nodes.length := by
    rw [← hk.draft]
    simp [draft]
  have hrun := Draft.length_nodes_run p.draft [e]
  rw [Draft.run_cons, Draft.run_nil, Event.startCount_cons, ← hlength] at hrun
  have hdraft : p.draft.nodes.length = p.records.length := List.length_map _
  rcases hne with hne | hstart
  · have := List.length_pos_iff.2 hne
    exact List.length_pos_iff.1 (by omega)
  · rw [if_pos hstart] at hrun
    exact List.length_pos_iff.1 (by omega)

/-- A run keeps to the draft like its steps. Its events have to start a node before anything
else. -/
theorem run_eq_ok (hne : p.records = [] → ∀ e ∈ events.head?, e.isStart = true)
    (hr : p.run size events = .ok q) :
    q.draft = p.draft.run events ∧
      (∃ new, p.draft.reserveAll? p.cursor events = some (new, q.cursor) ∧
        q.intervals = p.intervals ++ new ∧ ∀ i ∈ new, i.stop ≤ size + markSize) ∧
      q.nodeCount = p.nodeCount + Event.startCount events := by
  induction events generalizing p with
  | nil =>
    cases hr
    exact ⟨rfl, ⟨[], rfl, by simp, by simp⟩, rfl⟩
  | cons e rest ih =>
    obtain ⟨p', hs, hrest⟩ := run_cons_eq_ok.1 hr
    have hstart : p.records ≠ [] ∨ e.isStart = true := by
      by_cases h : p.records = []
      · exact .inr (hne h e (by simp))
      · exact .inl h
    have hk := kept_of_steps hstart (step_eq_ok_iff.1 hs)
    have hne' := records_ne_nil_of_kept hk hstart
    obtain ⟨hdraft, ⟨new, hnew, hintervals, hstop⟩, hcount⟩ := hk
    obtain ⟨hdraft', ⟨later, hlater, hintervals', hstop'⟩, hcount'⟩ :=
      ih (fun h => absurd h hne') hrest
    rw [hdraft] at hdraft' hlater
    refine ⟨hdraft', ⟨new ++ later, ?_, ?_, ?_⟩, ?_⟩
    · exact Draft.reserveAll?_cons.2 ⟨new, p'.cursor, later, hnew, hlater, rfl⟩
    · rw [hintervals', hintervals, List.append_assoc]
    · intro i hi
      exact (List.mem_append.1 hi).elim (hstop i) (hstop' i)
    · rw [hcount', hcount, Event.startCount_cons]
      omega

theorem exists_run (hne : p.records = [] → ∀ e ∈ events.head?, e.isStart = true)
    (hr : p.draft.reserveAll? p.cursor events = some (new, c))
    (hstop : ∀ i ∈ new, i.stop ≤ size + markSize) : ∃ q, p.run size events = .ok q := by
  induction events generalizing p new with
  | nil => exact ⟨p, rfl⟩
  | cons e rest ih =>
    obtain ⟨now, c₁, later, hnow, hlater, rfl⟩ := Draft.reserveAll?_cons.1 hr
    have hstart : p.records ≠ [] ∨ e.isStart = true := by
      by_cases h : p.records = []
      · exact .inr (hne h e (by simp))
      · exact .inl h
    obtain ⟨p', hs⟩ := exists_step hnow fun i hi => hstop i (List.mem_append_left _ hi)
    have hk := kept_of_steps hstart (step_eq_ok_iff.1 hs)
    have hne' := records_ne_nil_of_kept hk hstart
    obtain ⟨hdraft, ⟨now', hnow', -, -⟩, -⟩ := hk
    rw [hnow] at hnow'
    cases hnow'
    rw [← hdraft] at hlater
    obtain ⟨q, hq⟩ := ih (fun h => absurd h hne') hlater fun i hi =>
      hstop i (List.mem_append_right _ hi)
    exact ⟨q, run_cons_eq_ok.2 ⟨p', hs, hq⟩⟩

end Populating
end Build
end Devicetree
