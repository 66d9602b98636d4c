import Devicetree.Proofs.Discipline

/-!
# Listings

What the blob lists for a node decides which property records the node gets. Each property listed
has one that refers to the blob; a node that lists no name gets one more, which comes last and
holds its value itself. So the lengths of all the node's records can be read off the tokens.
-/

namespace Devicetree

namespace Outline

variable {nameAt : UInt32 → Except Error Bytes} {outcome : Except Error Unit} {T : List Token}
  {t : Token} {place : Place} {ending : Ending}

theorem ne_complete_of_advance (ha : advance nameAt place t = .error ending) :
    ending ≠ .complete := by
  unfold advance at ha
  split at ha
  case h_5 =>
    split at ha
    · cases ha
      simp
    · contradiction
  all_goals
    cases ha
    try simp

/-- A complete outline has read every token, and adds nothing but the end of a node's properties
if it stopped among these. -/
theorem exists_reads_of_complete (h : (ofTokens nameAt outcome .start T).ending = .complete) :
    ∃ first place, Reads nameAt T T.length first place ∧
      (place = .header ∧ (ofTokens nameAt outcome .start T).events = first ++ [.endProperties] ∨
        place = .body ∧ (ofTokens nameAt outcome .start T).events = first) := by
  rcases reads_or_ends (Nat.le_refl T.length) with
    ⟨first, place, hreads⟩ | ⟨j, -, first, place, t, ending, -, -, ha, heq⟩
  · refine ⟨first, place, hreads, ?_⟩
    rw [hreads.ofTokens_eq, List.drop_length] at h ⊢
    cases outcome <;> cases place <;> simp [ofTokens, stop, cons] at h ⊢
  · rw [heq] at h
    exact absurd h (ne_complete_of_advance ha)

end Outline

/-! ## Contents of property records -/

def PropertyRecord.content (p : PropertyRecord) : Bytes × Bytes × Bool :=
  (p.name, p.value, p.isInline)

/-- What the property records of a node hold, by the node's path and the properties that the blob
lists for it. -/
def contents (path : Bytes) (listed : List (Bytes × Bytes)) : List (Bytes × Bytes × Bool) :=
  listed.map (fun p => (p.1, p.2, false)) ++
    if listed.any fun p => p.1 = nameKey then [] else [(nameKey, Path.shortName path ++ [0], true)]

def recordLengths (path : Bytes) (listed : List (Bytes × Bytes)) : List Nat :=
  (nodeRecordSize + path.length) :: listed.map (fun _ => propertyRecordSize) ++
    if listed.any fun p => p.1 = nameKey then []
    else [propertyRecordSize + (Path.shortName path).length + 1]

namespace NodeRecord

/-- The node has a record for each of the properties listed, and one for its name. -/
def Lists (r : NodeRecord) (listed : List (Bytes × Bytes)) : Prop :=
  r.properties.map PropertyRecord.content = contents r.path listed

/-- The part of a record that no later node changes. -/
def listing (r : NodeRecord) : Bytes × List PropertyRecord := (r.path, r.properties)

def Borrows (r : NodeRecord) : Prop := ∀ q ∈ r.properties, q.isInline = false

variable {r : NodeRecord} {listed : List (Bytes × Bytes)} {q : PropertyRecord}

theorem Lists.lengths_eq (h : r.Lists listed) :
    r.intervals.map Interval.length = recordLengths r.path listed := by
  let length (c : Bytes × Bytes × Bool) : Nat :=
    if c.2.2 then propertyRecordSize + c.2.1.length else propertyRecordSize
  have hproperties : r.properties.map (Interval.length ∘ PropertyRecord.interval) =
      (contents r.path listed).map length := by
    rw [← show _ = _ from h, List.map_map]
    rfl
  have hlisted : listed.map (length ∘ fun p => (p.1, p.2, false)) =
      listed.map fun _ => propertyRecordSize := rfl
  rw [intervals, List.map_cons, List.map_map, hproperties, contents, recordLengths, List.map_append,
    List.map_map, hlisted, List.cons_append]
  refine congrArg (_ :: _ ++ ·) ?_
  split
  · rfl
  · simp [length, Nat.add_assoc]

theorem Borrows.map_content (h : r.Borrows) :
    r.properties.map PropertyRecord.content =
      r.draft.properties.map fun p => (p.1, p.2, false) := by
  rw [draft, List.map_map]
  refine List.map_congr_left fun q hq => ?_
  simp [PropertyRecord.content, h q hq]

theorem path_addProperty (r : NodeRecord) (q : PropertyRecord) : (r.addProperty q).path = r.path :=
  congrArg DraftNode.path (r.draft_addProperty q)

theorem Borrows.addProperty (h : r.Borrows) (hq : q.isInline = false) :
    (r.addProperty q).Borrows := by
  intro q' hq'
  rw [addProperty_properties, List.mem_append, List.mem_singleton] at hq'
  rcases hq' with hq' | rfl
  · exact h q' hq'
  · exact hq

theorem Borrows.lists (h : r.Borrows) (hname : nameKey ∈ r.draft.properties.map Prod.fst) :
    r.Lists r.draft.properties := by
  obtain ⟨p, hp, hkey⟩ := List.mem_map.1 hname
  have hany : r.draft.properties.any (fun p => p.1 = nameKey) = true :=
    List.any_eq_true.2 ⟨p, hp, by simpa using hkey⟩
  rw [Lists, h.map_content, contents, if_pos hany, List.append_nil]

theorem Borrows.lists_addProperty (h : r.Borrows)
    (hname : nameKey ∉ r.draft.properties.map Prod.fst)
    (hq : q.content = (nameKey, Path.shortName r.path ++ [0], true)) :
    (r.addProperty q).Lists r.draft.properties := by
  have hany : ¬ r.draft.properties.any (fun p => p.1 = nameKey) = true := by
    intro hany
    obtain ⟨p, hp, hkey⟩ := List.any_eq_true.1 hany
    exact hname (List.mem_map.2 ⟨p, hp, by simpa using hkey⟩)
  rw [Lists, addProperty_properties, List.map_append, h.map_content, contents, if_neg hany,
    path_addProperty, List.map_singleton, hq]

end NodeRecord

namespace Build
namespace Populating

open Outline Token

theorem getElem?_attach (records : List NodeRecord) (q : PropertyRecord) (j : Nat) :
    (attach records q)[j]? = records[j]?.map fun r =>
      if j + 1 = records.length then r.addProperty q else r := by
  unfold attach
  rw [List.getElem?_modify]
  cases hr : records[j]? with
  | none => rfl
  | some r =>
    have hj := (List.getElem?_eq_some_iff.1 hr).1
    by_cases hlast : j + 1 = records.length
    · simp [← hlast]
    · simp [hlast, show records.length - 1 ≠ j by omega]

@[simp] theorem length_attach (records : List NodeRecord) (q : PropertyRecord) :
    (attach records q).length = records.length := List.length_modify ..

section Append

variable {records : List NodeRecord} {j : Nat} {r : NodeRecord} {offset : UInt32} {path : Bytes}
  {parent last : Option Nat}

theorem map_listing_append (records : List NodeRecord) (offset : UInt32) (path : Bytes)
    (parent last : Option Nat) :
    (append records offset path parent last).map NodeRecord.listing =
      records.map NodeRecord.listing ++ [(path, [])] :=
  map_append (fun _ _ _ _ _ => rfl) records offset path parent last

theorem exists_append_of_getElem? (hr : records[j]? = some r) :
    ∃ r', (append records offset path parent last)[j]? = some r' ∧ r'.listing = r.listing := by
  have hj := (List.getElem?_eq_some_iff.1 hr).1
  have hmap := congrArg (·[j]?) (map_listing_append records offset path parent last)
  simp only [List.getElem?_map] at hmap
  rw [List.getElem?_append_left (by simpa using hj), List.getElem?_map, hr] at hmap
  exact Option.map_eq_some_iff.1 hmap

theorem properties_append_last
    (hr : (append records offset path parent last)[records.length]? = some r) :
    r.properties = [] := by
  have hmap := congrArg (·[records.length]?) (map_listing_append records offset path parent last)
  simp only [List.getElem?_map, hr] at hmap
  simpa [NodeRecord.listing] using congrArg (Option.map Prod.snd) hmap

end Append

/-- The records hold what the tokens before `k` list, all but the name of a node whose properties
may go on. -/
structure Lists (nameAt : UInt32 → Except Error Bytes) (T : List Token) (k : Nat) (place : Place)
    (p : Populating) : Prop where
  follows : p.draft.Follows nameAt T k place
  node : ∀ i name, i < k → T[i]? = some (.beginNode name) →
    (place = .header → begins (T.take i) + 1 ≠ p.records.length) →
    ∃ r listed, p.records[begins (T.take i)]? = some r ∧ Named nameAt (header T i) listed ∧
      r.Lists listed
  borrows : place = .header → ∀ j r, p.records[j]? = some r → j + 1 = p.records.length → r.Borrows

variable {nameAt : UInt32 → Except Error Bytes} {outcome : Except Error Unit} {T : List Token}
  {k size : Nat} {t : Token} {first new : List Event} {place place' : Place} {p q : Populating}
  {name value : Bytes}

theorem lists_start (nameAt : UInt32 → Except Error Bytes) (T : List Token) :
    start.Lists nameAt T 0 .start where
  follows := Draft.follows_start nameAt T
  node := fun i _ hi => absurd hi (Nat.not_lt_zero i)
  borrows := nofun

theorem length_draft (p : Populating) : p.draft.nodes.length = p.records.length :=
  List.length_map _

theorem Lists.nop (h : p.Lists nameAt T k place) (ht : T[k]? = some .nop) :
    p.Lists nameAt T (k + 1) place where
  follows := h.follows.nop ht
  node := fun i name hi hname => h.node i name (Draft.lt_of_isBegin ht rfl hi hname) hname
  borrows := h.borrows

theorem Lists.endNode (h : p.Lists nameAt T k .body) (ht : T[k]? = some .endNode)
    (hs : p.Steps size .endNode q) : q.Lists nameAt T (k + 1) .body := by
  have hfollows := draft_of_steps hs ▸ h.follows.endNode ht
  cases hs
  exact ⟨hfollows, fun i name hi hname => h.node i name (Draft.lt_of_isBegin ht rfl hi hname) hname,
    nofun⟩

theorem Lists.startNode (h : p.Lists nameAt T k place) (hplace : place ≠ .header)
    (ht : T[k]? = some (.beginNode name)) (hs : p.Steps size (.startNode name) q) :
    q.Lists nameAt T (k + 1) .header := by
  have hfollows := draft_of_steps hs ▸ h.follows.startNode hplace ht
  have hlength : begins (T.take k) = p.records.length := by
    rw [← h.follows.length_nodes, length_draft]
  cases hs
  refine ⟨hfollows, ?_, ?_⟩
  · intro i name' hi hname hlast
    rcases Nat.lt_or_eq_of_le (Nat.le_of_lt_succ hi) with hi | rfl
    · obtain ⟨r, listed, hr, hnamed, hlists⟩ := h.node i name' hi hname fun h => absurd h hplace
      obtain ⟨r', hr', heq⟩ := exists_append_of_getElem? hr
      obtain ⟨hpath, hproperties⟩ := Prod.mk.inj heq
      refine ⟨r', listed, hr', hnamed, ?_⟩
      rw [NodeRecord.Lists, hpath, hproperties]
      exact hlists
    · exact absurd (by simp [hlength]) (hlast rfl)
  · intro _ j r hr hlast
    obtain rfl : j = p.records.length := by simpa using hlast
    simp [NodeRecord.Borrows, properties_append_last hr]

theorem Lists.node_attach (h : p.Lists nameAt T k .header) (record : PropertyRecord) {i : Nat}
    (hi : i < k) (hname : T[i]? = some (.beginNode name))
    (hlast : begins (T.take i) + 1 ≠ p.records.length) :
    ∃ r listed, (attach p.records record)[begins (T.take i)]? = some r ∧
      Named nameAt (header T i) listed ∧ r.Lists listed := by
  obtain ⟨r, listed, hr, hnamed, hlists⟩ := h.node i name hi hname fun _ => hlast
  refine ⟨r, listed, ?_, hnamed, hlists⟩
  rw [getElem?_attach, hr, Option.map_some, if_neg hlast]

theorem Lists.property (h : p.Lists nameAt T k .header) {nameOffset : UInt32}
    (ht : T[k]? = some (.property nameOffset value)) (hat : nameAt nameOffset = .ok name)
    (hs : p.Steps size (.property name value) q) : q.Lists nameAt T (k + 1) .header := by
  have hfollows := draft_of_steps hs ▸ h.follows.property ht hat
  cases hs
  refine ⟨hfollows, ?_, ?_⟩
  · intro i name' hi hname hlast
    exact h.node_attach _ (Draft.lt_of_isBegin ht rfl hi hname) hname
      (by simpa using hlast rfl)
  · intro _ j r hr hlast
    rw [length_attach] at hlast
    rw [getElem?_attach] at hr
    obtain ⟨r', hr', rfl⟩ := Option.map_eq_some_iff.1 hr
    rw [if_pos hlast]
    exact (h.borrows rfl j r' hr' hlast).addProperty rfl

theorem Lists.endProperties (h : p.Lists nameAt T k .header) (hk : k ≤ T.length)
    (hstop : ∀ t, T[k]? = some t → t.inHeader = false) (hs : p.Steps size .endProperties q) :
    q.Lists nameAt T k .body := by
  have hfollows := draft_of_steps hs ▸ h.follows.endProperties hk hstop
  refine ⟨hfollows, ?_, nofun⟩
  -- The node last started is the one whose properties end here.
  obtain ⟨i, n, hf⟩ := h.follows.filling rfl
  obtain ⟨name, hname⟩ := hf.isBegin
  have hheader := header_eq hk hf.lt hf.inHeader hstop
  obtain ⟨r, hr, rfl⟩ : ∃ r, p.records[begins (T.take i)]? = some r ∧ r.draft = n := by
    have hn := hf.getElem?
    rw [draft, List.getElem?_map] at hn
    exact Option.map_eq_some_iff.1 hn
  have hlast : begins (T.take i) + 1 = p.records.length := by
    rw [← hf.length_nodes, length_draft]
  have hborrows := h.borrows rfl _ r hr hlast
  have hnamed : Named nameAt (header T i) r.draft.properties := hheader ▸ hf.named
  have hpath : p.draft.path? = some r.path := by
    rw [Draft.path?, hf.current, Option.bind_some, hf.getElem?]
    rfl
  have honly : ∀ j name', T[j]? = some (.beginNode name') →
      begins (T.take j) + 1 = p.records.length → j = i := fun j name' hj hj' =>
    Draft.begins_take_inj hj hname (by omega)
  intro j name' hj hname' _
  cases hs with
  | @endProperties i c hisNamed hrec hstop' =>
    by_cases hj' : begins (T.take j) + 1 = p.records.length
    · obtain rfl := honly j name' hname' hj'
      have hunnamed : nameKey ∉ r.draft.properties.map Prod.fst := by
        simpa [hisNamed, draft] using hf.isNamed
      have hown : PropertyRecord.content ⟨i.offset, nameKey, p.draft.ownName, true⟩ =
          (nameKey, Path.shortName r.path ++ [0], true) := by
        rw [PropertyRecord.content, Draft.ownName, hpath]
        rfl
      refine ⟨_, _, ?_, hnamed, hborrows.lists_addProperty hunnamed hown⟩
      rw [getElem?_attach, hr, Option.map_some, if_pos hlast]
    · exact h.node_attach _ hj hname' hj'
  | endProperties_of_isNamed hisNamed =>
    by_cases hj' : begins (T.take j) + 1 = p.records.length
    · obtain rfl := honly j name' hname' hj'
      have hlisted : nameKey ∈ r.draft.properties.map Prod.fst := by
        simpa [hisNamed, draft] using hf.isNamed
      exact ⟨r, _, hr, hnamed, hborrows.lists hlisted⟩
    · exact h.node j name' hj hname' fun _ => hj'

theorem run_singleton_eq_ok {e : Event} : p.run size [e] = .ok q ↔ p.Steps size e q := by
  rw [run_cons_eq_ok, ← step_eq_ok_iff]
  simp [run]

theorem run_pair_eq_ok {e e' : Event} :
    p.run size [e, e'] = .ok q ↔ ∃ p', p.Steps size e p' ∧ p'.Steps size e' q := by
  rw [run_cons_eq_ok]
  simp only [run_singleton_eq_ok, step_eq_ok_iff]

/-- The events of a token do to the records what the token lists. -/
theorem Lists.advance (h : p.Lists nameAt T k place) (ht : T[k]? = some t)
    (ha : Outline.advance nameAt place t = .ok (new, place')) (hr : p.run size new = .ok q) :
    q.Lists nameAt T (k + 1) place' := by
  have hk : k ≤ T.length := Nat.le_of_lt (List.getElem?_eq_some_iff.1 ht).1
  have hstop : t.inHeader = false → ∀ t', T[k]? = some t' → t'.inHeader = false := by
    intro hheader t' ht'
    rwa [← Option.some.inj (ht.symm.trans ht')]
  unfold Outline.advance at ha
  split at ha
  case h_1 =>
    cases ha
    cases hr
    exact h.nop ht
  case h_5 =>
    split at ha
    · contradiction
    · rename_i hat
      cases ha
      exact h.property ht hat (run_singleton_eq_ok.1 hr)
  case h_6 =>
    cases ha
    obtain ⟨p', hend, hstart⟩ := run_pair_eq_ok.1 hr
    exact (h.endProperties hk (hstop rfl) hend).startNode (by simp) ht hstart
  case h_7 =>
    cases ha
    obtain ⟨p', hend, hend'⟩ := run_pair_eq_ok.1 hr
    exact (h.endProperties hk (hstop rfl) hend).endNode ht hend'
  case h_2 | h_9 =>
    cases ha
    exact h.startNode (by simp) ht (run_singleton_eq_ok.1 hr)
  case h_10 =>
    cases ha
    exact h.endNode ht (run_singleton_eq_ok.1 hr)
  all_goals contradiction

theorem run_append_eq_ok {rest : List Event} :
    p.run size (first ++ rest) = .ok q ↔
      ∃ p', p.run size first = .ok p' ∧ p'.run size rest = .ok q := by
  induction first generalizing p with
  | nil => simp [run]
  | cons e first ih =>
    rw [List.cons_append, run_cons_eq_ok]
    simp only [ih, run_cons_eq_ok]
    constructor
    · rintro ⟨p₁, hs, p₂, hfirst, hrest⟩
      exact ⟨p₂, ⟨p₁, hs, hfirst⟩, hrest⟩
    · rintro ⟨p₂, ⟨p₁, hs, hfirst⟩, hrest⟩
      exact ⟨p₁, hs, p₂, hfirst, hrest⟩

theorem lists_of_reads (h : Reads nameAt T k first place) (hr : start.run size first = .ok p) :
    p.Lists nameAt T k place := by
  induction h generalizing p with
  | start =>
    cases hr
    exact lists_start nameAt T
  | token _ ht ha ih =>
    obtain ⟨p', hfirst, hnew⟩ := run_append_eq_ok.1 hr
    exact (ih hfirst).advance ht ha hnew

/-- The records of a complete outline hold what all the tokens list. -/
theorem lists_of_complete (hc : (ofTokens nameAt outcome .start T).ending = .complete)
    (hr : start.run size (ofTokens nameAt outcome .start T).events = .ok p) :
    p.Lists nameAt T T.length .body := by
  obtain ⟨first, place, hreads, ⟨rfl, hevents⟩ | ⟨rfl, hevents⟩⟩ := exists_reads_of_complete hc
  · rw [hevents] at hr
    obtain ⟨p', hfirst, hend⟩ := run_append_eq_ok.1 hr
    exact (lists_of_reads hreads hfirst).endProperties (Nat.le_refl _) (by simp)
      (run_singleton_eq_ok.1 hend)
  · rw [hevents] at hr
    exact lists_of_reads hreads hr

end Populating

open Token

variable {b : Blob} {size : Nat} {p : Populating}

/-- The node that a token begins has its name joined to its parent's path, and property records for
what the tokens list. -/
theorem exists_lists_of_populate (hp : populate b size = .ok p) {k : Nat} {name : Bytes}
    (hname : b.tokens.tokens[k]? = some (.beginNode name)) :
    ∃ r listed, p.records[begins (b.tokens.tokens.take k)]? = some r ∧
      r.path = Path.join ((r.parent.bind fun i => p.records[i]?).map NodeRecord.path) name ∧
      Named (fun off => b.stringAt off.toUInt64) (header b.tokens.tokens k) listed ∧
      r.Lists listed := by
  obtain ⟨hrun, hending⟩ := populate_eq_ok hp
  have hlists := Populating.lists_of_complete hending hrun
  have hk := (List.getElem?_eq_some_iff.1 hname).1
  obtain ⟨r, listed, hr, hnamed, hlisted⟩ := hlists.node k name hk hname (by simp)
  obtain ⟨n, hn, ⟨-, paths, hopens, hpath⟩, -⟩ := hlists.follows.node k name hk hname
  obtain rfl : r.draft = n := by
    simpa [Populating.draft, hr] using hn
  refine ⟨r, listed, hr, ?_, hnamed, hlisted⟩
  rw [← p.map_path_draft r.parent]
  exact hpath.trans (congrArg (Path.join · name) hopens.head?.symm)

end Build

/-! ## Values that are read -/

namespace Node

variable {n : Node} {listed : List (Bytes × Bytes)} {records : List PropertyRecord}

theorem map_value_eq
    (h : records.map PropertyRecord.content = listed.map fun p => (p.1, p.2, false)) :
    (records.map (Property.mk n)).map (fun q => (q.record.name, q.value)) = listed := by
  have hpairs := congrArg (List.map fun c => (c.1, c.2.1)) h
  rw [List.map_map, List.map_map] at hpairs
  rw [List.map_map]
  refine Eq.trans (List.map_congr_left fun r hr => ?_) (hpairs.trans (List.map_id _))
  have hmem : r.content ∈ listed.map fun p => (p.1, p.2, false) :=
    h ▸ List.mem_map_of_mem hr
  obtain ⟨p, -, hcontent⟩ := List.mem_map.1 hmem
  have hinline : r.isInline = false := (congrArg (·.2.2) hcontent).symm
  exact congrArg (Prod.mk r.name) (n.tree.read_of_isInline_eq_false hinline)

theorem map_properties_of_mem (h : n.record.Lists listed) (hname : nameKey ∈ listed.map Prod.fst) :
    n.properties.map (fun q => (q.record.name, q.value)) = listed := by
  have hany : listed.any (fun p => p.1 = nameKey) = true := by
    simpa [List.any_eq_true] using hname
  unfold NodeRecord.Lists contents at h
  rw [if_pos hany, List.append_nil] at h
  exact map_value_eq h

theorem exists_properties_eq_concat (h : n.record.Lists listed)
    (hname : nameKey ∉ listed.map Prod.fst) :
    ∃ front p, n.properties = front ++ [p] ∧
      front.map (fun q => (q.record.name, q.value)) = listed ∧
      p.record.content = (nameKey, Path.shortName n.pathBytes ++ [0], true) := by
  have hany : ¬ listed.any (fun p => p.1 = nameKey) = true := by
    simpa [List.any_eq_true] using hname
  unfold NodeRecord.Lists contents at h
  rw [if_neg hany] at h
  obtain ⟨front, last, hrecords, hfront, hlast⟩ := List.map_eq_append_iff.1 h
  obtain ⟨p, rfl, hp⟩ := List.map_eq_singleton_iff.1 hlast
  refine ⟨front.map (Property.mk n), ⟨n, p⟩, ?_, map_value_eq hfront, hp⟩
  rw [properties, hrecords, List.map_append, List.map_singleton]

end Node
end Devicetree
