import Devicetree.Proofs.Device
import Devicetree.Proofs.Draft
import Devicetree.Proofs.Nesting
import Devicetree.Proofs.Passes

/-!
# Drafts and tokens

A draft says what the tokens say. Each of its nodes stands for a token that begins one: the parent
is the innermost node open there, the path continues that of the parent, and the properties are
those listed behind the token, up to the next one that begins or ends a node.
-/

namespace Devicetree
namespace Token

def property? : Token → Option (UInt32 × Bytes)
  | .property nameOffset value => some (nameOffset, value)
  | .beginNode _ | .endNode | .nop => none

def inHeader : Token → Bool
  | .property _ _ | .nop => true
  | .beginNode _ | .endNode => false

/-- The properties listed behind the token at `k`. -/
def header (T : List Token) (k : Nat) : List (UInt32 × Bytes) :=
  ((T.drop (k + 1)).takeWhile inHeader).filterMap property?

/-- The properties are those listed, with their names looked up. -/
def Named (nameAt : UInt32 → Except Error Bytes) (listed : List (UInt32 × Bytes))
    (properties : List (Bytes × Bytes)) : Prop :=
  List.Forall₂ (fun l p => nameAt l.1 = .ok p.1 ∧ l.2 = p.2) listed properties

variable {T : List Token} {i k : Nat} {t : Token}

theorem header_eq (hk : k ≤ T.length) (hi : i < k) (hbetween : ∀ t ∈ between T i k, t.inHeader)
    (hstop : ∀ t, T[k]? = some t → t.inHeader = false) :
    header T i = (between T i k).filterMap property? := by
  have hsplit : T.drop (i + 1) = between T i k ++ T.drop k := by
    unfold between
    rw [← List.drop_append_of_le_length (by rw [List.length_take]; omega), List.take_append_drop]
  have hrest : (T.drop k).takeWhile inHeader = [] := by
    cases hdrop : T.drop k with
    | nil => rfl
    | cons t rest =>
      have ht : T[k]? = some t := by
        rw [← List.head?_drop, hdrop, List.head?_cons]
      rw [List.takeWhile_cons_of_neg (by simp [hstop t ht])]
  rw [header, hsplit, List.takeWhile_append_of_pos hbetween, hrest, List.append_nil]

end Token

namespace Draft

open Token

theorem getElem?_attach (nodes : List DraftNode) (p : Bytes × Bytes) (j : Nat) :
    (attach nodes p)[j]? = nodes[j]?.map fun n =>
      if j + 1 = nodes.length then { n with properties := n.properties ++ [p] } else n := by
  unfold attach
  rw [List.getElem?_modify]
  cases hn : nodes[j]? with
  | none => rfl
  | some n =>
    have hj := (List.getElem?_eq_some_iff.1 hn).1
    by_cases hlast : j + 1 = nodes.length
    · simp [← hlast]
    · simp [hlast, show nodes.length - 1 ≠ j by omega]

/-- The node's parent and path are what the tokens say of the node that begins at `k`. -/
structure Placed (T : List Token) (nodes : List DraftNode) (k : Nat) (name : Bytes)
    (n : DraftNode) : Prop where
  parent : n.parent = (openAt T k).head?.map fun i => begins (T.take i)
  path : ∃ paths, Opens nodes n.parent paths ∧ n.path = Path.join paths.head? name

def Filled (nameAt : UInt32 → Except Error Bytes) (T : List Token) (k : Nat) (n : DraftNode) :
    Prop :=
  ∃ properties, Named nameAt (header T k) properties ∧ n.properties = withName n.path properties

/-- The node last started begins at `i`, and the tokens behind it only gave it properties. -/
structure Filling (nameAt : UInt32 → Except Error Bytes) (T : List Token) (k : Nat) (d : Draft)
    (i : Nat) (n : DraftNode) : Prop where
  lt : i < k
  isBegin : ∃ name, T[i]? = some (.beginNode name)
  getElem? : d.nodes[begins (T.take i)]? = some n
  length_nodes : d.nodes.length = begins (T.take i) + 1
  current : d.current = some (begins (T.take i))
  inHeader : ∀ t ∈ between T i k, t.inHeader
  named : Named nameAt ((between T i k).filterMap property?) n.properties
  isNamed : d.isNamed = decide (nameKey ∈ n.properties.map Prod.fst)

/-- The draft is what the tokens before `k` say, all but the name of a node whose properties may
go on. -/
structure Follows (nameAt : UInt32 → Except Error Bytes) (T : List Token) (k : Nat)
    (place : Outline.Place) (d : Draft) : Prop where
  length_nodes : d.nodes.length = begins (T.take k)
  current : d.current = (openAt T k).head?.map fun i => begins (T.take i)
  opens : ∃ paths, Opens d.nodes d.current paths
  node : ∀ i name, i < k → T[i]? = some (.beginNode name) →
    ∃ n, d.nodes[begins (T.take i)]? = some n ∧ Placed T d.nodes i name n ∧
      (Filled nameAt T i n ∨ place = .header ∧ begins (T.take i) + 1 = d.nodes.length)
  filling : place = .header → ∃ i n, Filling nameAt T k d i n

variable {nameAt : UInt32 → Except Error Bytes} {T : List Token} {i k : Nat} {d : Draft}
  {place : Outline.Place} {name : Bytes} {t : Token} {n : DraftNode} {nodes nodes' : List DraftNode}

theorem Placed.mono {n' : DraftNode} (h : Placed T nodes k name n) (hkeep : Keeps nodes nodes')
    (hpath : n'.path = n.path) (hparent : n'.parent = n.parent) : Placed T nodes' k name n' := by
  obtain ⟨hp, paths, hopens, hn⟩ := h
  rw [← hparent] at hp hopens
  exact ⟨hp, paths, hopens.mono hkeep, hpath.trans hn⟩

theorem follows_start (nameAt : UInt32 → Except Error Bytes) (T : List Token) :
    Follows nameAt T 0 .start start where
  length_nodes := rfl
  current := rfl
  opens := ⟨[], .top⟩
  node := fun i _ hi => absurd hi (Nat.not_lt_zero i)
  filling := nofun

theorem openAt_of_inHeader (ht : T[k]? = some t) (hheader : t.inHeader = true) :
    openAt T (k + 1) = openAt T k ∧ begins (T.take (k + 1)) = begins (T.take k) := by
  rw [openAt_succ ht, begins_take_succ ht]
  cases t with
  | beginNode name => contradiction
  | endNode => contradiction
  | property nameOffset value => exact ⟨rfl, rfl⟩
  | nop => exact ⟨rfl, rfl⟩

theorem lt_of_isBegin (ht : T[k]? = some t) (hbegin : t.isBegin = false) (hi : i < k + 1)
    (hname : T[i]? = some (.beginNode name)) : i < k := by
  rcases Nat.lt_or_eq_of_le (Nat.le_of_lt_succ hi) with hi | rfl
  · exact hi
  · obtain rfl := Option.some.inj (ht.symm.trans hname)
    contradiction

theorem Follows.nop (h : d.Follows nameAt T k place) (ht : T[k]? = some .nop) :
    d.Follows nameAt T (k + 1) place := by
  obtain ⟨hlength, hcurrent, hopens, hnode, hfilling⟩ := h
  obtain ⟨hstack, hbegins⟩ := openAt_of_inHeader ht rfl
  constructor
  case length_nodes => exact hbegins ▸ hlength
  case current => exact hstack ▸ hcurrent
  case opens => exact hopens
  case node =>
    intro i name hi hname
    exact hnode i name (lt_of_isBegin ht rfl hi hname) hname
  case filling =>
    intro hplace
    obtain ⟨i, n, hf⟩ := hfilling hplace
    refine ⟨i, n, { hf with lt := Nat.lt_succ_of_lt hf.lt, inHeader := ?_, named := ?_ }⟩
    · rw [between_succ hf.lt ht]
      intro t ht
      rcases List.mem_append.1 ht with ht | ht
      · exact hf.inHeader t ht
      · rw [List.mem_singleton.1 ht]
        rfl
    · rw [between_succ hf.lt ht, List.filterMap_append]
      simpa [List.filterMap_cons, property?] using hf.named

theorem Follows.startNode (h : d.Follows nameAt T k place) (hplace : place ≠ .header)
    (ht : T[k]? = some (.beginNode name)) :
    (d.step (.startNode name)).Follows nameAt T (k + 1) .header := by
  obtain ⟨hlength, hcurrent, ⟨paths, hopens⟩, hnode, -⟩ := h
  have hkeep : Keeps d.nodes (d.step (.startNode name)).nodes := keeps_append _ _
  have hbegins : begins (T.take (k + 1)) = begins (T.take k) + 1 := begins_take_succ ht
  have hnew : (d.step (.startNode name)).nodes[begins (T.take k)]? =
      some ⟨Path.join d.path? name, d.current, []⟩ := by
    rw [← hlength]
    exact List.getElem?_concat_length
  have hsteps : (d.step (.startNode name)).nodes.length = begins (T.take k) + 1 := by
    rw [← hlength]
    exact List.length_append
  constructor
  case length_nodes => exact hsteps.trans hbegins.symm
  case current =>
    rw [openAt_succ ht]
    exact congrArg some hlength
  case opens => exact ⟨_, hopens.step _⟩
  case node =>
    intro i name' hi hname
    rcases Nat.lt_or_eq_of_le (Nat.le_of_lt_succ hi) with hi | rfl
    · obtain ⟨n, hn, hplaced, hfilled⟩ := hnode i name' hi hname
      refine ⟨n, ?_, hplaced.mono hkeep rfl rfl, .inl (hfilled.resolve_right fun h => hplace h.1)⟩
      exact (List.getElem?_append_left (List.getElem?_eq_some_iff.1 hn).1).trans hn
    · obtain rfl : name = name' := by simpa using ht.symm.trans hname
      refine ⟨_, hnew, ⟨hcurrent, paths, hopens.mono hkeep, ?_⟩, .inr ⟨rfl, hsteps.symm⟩⟩
      rw [hopens.path?]
  case filling =>
    intro _
    have hnil : between T k (k + 1) = [] := between_eq_nil (Nat.le_refl _)
    exact ⟨k, _, Nat.lt_succ_self k, ⟨name, ht⟩, hnew, hsteps, congrArg some hlength,
      by simp [hnil], by simp [hnil, Named], rfl⟩

theorem Follows.endNode (h : d.Follows nameAt T k .body) (ht : T[k]? = some .endNode) :
    (d.step .endNode).Follows nameAt T (k + 1) .body := by
  obtain ⟨hlength, hcurrent, ⟨paths, hopens⟩, hnode, -⟩ := h
  have hbegins : begins (T.take (k + 1)) = begins (T.take k) := begins_take_succ ht
  constructor
  case length_nodes => exact hbegins ▸ hlength
  case current =>
    rw [openAt_succ ht]
    simp only [step, hcurrent, nest]
    cases hstack : openAt T k with
    | nil => rfl
    | cons a rest =>
      have hk : k ≤ T.length := Nat.le_of_lt (List.getElem?_eq_some_iff.1 ht).1
      have hopen : IsOpen T a k := (mem_openAt_iff hk).1 (hstack ▸ List.mem_cons_self)
      obtain ⟨name, hname⟩ := hopen.isBegin
      obtain ⟨n, hn, hplaced, -⟩ := hnode a name hopen.lt hname
      simp [hn, hplaced.parent, eq_openAt_of_cons hstack]
  case opens => exact ⟨_, hopens.step .endNode⟩
  case node =>
    intro i name hi hname
    exact hnode i name (lt_of_isBegin ht rfl hi hname) hname
  case filling =>
    intro hheader
    contradiction

theorem begins_take_inj {j : Nat} {name' : Bytes} (hi : T[i]? = some (.beginNode name))
    (hj : T[j]? = some (.beginNode name')) (h : begins (T.take i) = begins (T.take j)) : i = j := by
  have hlt : ∀ {i j : Nat} {name : Bytes}, T[i]? = some (.beginNode name) → i < j →
      begins (T.take i) < begins (T.take j) := by
    intro i j name hi hij
    have hsucc : begins (T.take (i + 1)) = begins (T.take i) + 1 := begins_take_succ hi
    have hle : begins (T.take (i + 1)) ≤ begins (T.take j) :=
      (List.take_sublist_take_left hij).countP_le
    omega
  rcases Nat.lt_trichotomy i j with hij | hij | hij
  · exact absurd h (Nat.ne_of_lt (hlt hi hij))
  · exact hij
  · exact absurd h (Nat.ne_of_gt (hlt hj hij))

/-- A property for the node last started leaves the others as they are. -/
theorem Follows.node_attach (h : d.Follows nameAt T k .header) (p : Bytes × Bytes) (hi : i < k)
    (hname : T[i]? = some (.beginNode name)) :
    ∃ n, (attach d.nodes p)[begins (T.take i)]? = some n ∧ Placed T (attach d.nodes p) i name n ∧
      (Filled nameAt T i n ∨ begins (T.take i) + 1 = d.nodes.length) := by
  obtain ⟨n, hn, hplaced, hfilled⟩ := h.node i name hi hname
  have hkeep := keeps_attach d.nodes p
  by_cases hlast : begins (T.take i) + 1 = d.nodes.length
  · obtain ⟨n', hn', hpath, hparent⟩ := hkeep _ n hn
    exact ⟨n', hn', hplaced.mono hkeep hpath hparent, .inr hlast⟩
  · refine ⟨n, ?_, hplaced.mono hkeep rfl rfl, .inl (hfilled.resolve_right fun h => hlast h.2)⟩
    rw [getElem?_attach, hn, Option.map_some, if_neg hlast]

theorem Follows.property (h : d.Follows nameAt T k .header) {nameOffset : UInt32} {value : Bytes}
    (ht : T[k]? = some (.property nameOffset value)) (hat : nameAt nameOffset = .ok name) :
    (d.step (.property name value)).Follows nameAt T (k + 1) .header := by
  obtain ⟨hstack, hbegins⟩ := openAt_of_inHeader ht rfl
  obtain ⟨paths, hopens⟩ := h.opens
  constructor
  case length_nodes =>
    rw [hbegins, ← h.length_nodes]
    exact length_attach _ _
  case current =>
    rw [hstack]
    exact h.current
  case opens => exact ⟨paths, hopens.step _⟩
  case node =>
    intro i name' hi hname
    obtain ⟨n, hn, hplaced, hfilled⟩ :=
      h.node_attach (name, value) (lt_of_isBegin ht rfl hi hname) hname
    refine ⟨n, hn, hplaced, hfilled.imp_right fun hlast => ⟨rfl, ?_⟩⟩
    exact hlast.trans (length_attach _ _).symm
  case filling =>
    intro _
    obtain ⟨i, n, hf⟩ := h.filling rfl
    refine ⟨i, { n with properties := n.properties ++ [(name, value)] },
      Nat.lt_succ_of_lt hf.lt, hf.isBegin, ?_, ?_, hf.current, ?_, ?_, ?_⟩
    · simp only [step, getElem?_attach, hf.getElem?, hf.length_nodes, Option.map_some, if_true]
    · exact (length_attach _ _).trans hf.length_nodes
    · rw [between_succ hf.lt ht]
      intro t ht
      rcases List.mem_append.1 ht with ht | ht
      · exact hf.inHeader t ht
      · rw [List.mem_singleton.1 ht]
        rfl
    · rw [between_succ hf.lt ht, List.filterMap_append]
      exact List.rel_append hf.named (.cons ⟨hat, rfl⟩ .nil)
    · simp only [step, hf.isNamed, List.map_append, List.mem_append]
      simp [eq_comm]

theorem Follows.endProperties (h : d.Follows nameAt T k .header) (hk : k ≤ T.length)
    (hstop : ∀ t, T[k]? = some t → t.inHeader = false) :
    (d.step .endProperties).Follows nameAt T k .body := by
  obtain ⟨i, n, hf⟩ := h.filling rfl
  obtain ⟨name, hname⟩ := hf.isBegin
  have hheader := header_eq hk hf.lt hf.inHeader hstop
  have honly : ∀ j name', T[j]? = some (.beginNode name') →
      begins (T.take j) + 1 = d.nodes.length → j = i := fun j name' hj hlast =>
    begins_take_inj hj hname (by have := hf.length_nodes; omega)
  have hdraft : d.path? = some n.path := by
    simp [path?, hf.current, hf.getElem?]
  rw [step]
  split
  · rename_i hisNamed
    refine ⟨h.length_nodes, h.current, h.opens, ?_, by simp⟩
    intro j name' hj hname'
    obtain ⟨n', hn', hplaced, hfilled | ⟨-, hlast⟩⟩ := h.node j name' hj hname'
    · exact ⟨n', hn', hplaced, .inl hfilled⟩
    · obtain rfl := honly j name' hname' hlast
      obtain rfl := Option.some.inj (hn'.symm.trans hf.getElem?)
      refine ⟨n', hn', hplaced, .inl ⟨n'.properties, hheader ▸ hf.named, ?_⟩⟩
      rw [withName, if_pos (by simpa [hf.isNamed] using hisNamed)]
  · rename_i hisNamed
    obtain ⟨paths, hopens⟩ := h.opens
    refine ⟨(length_attach _ _).trans h.length_nodes, h.current,
      ⟨paths, hopens.mono (keeps_attach _ _)⟩, ?_, by simp⟩
    intro j name' hj hname'
    obtain ⟨n', hn', hplaced, hfilled | hlast⟩ := h.node_attach (nameKey, d.ownName) hj hname'
    · exact ⟨n', hn', hplaced, .inl hfilled⟩
    · obtain rfl := honly j name' hname' hlast
      rw [getElem?_attach, hf.getElem?, Option.map_some, if_pos hlast, Option.some.injEq] at hn'
      refine ⟨n', ?_, hplaced, .inl ⟨n.properties, hheader ▸ hf.named, ?_⟩⟩
      · rw [getElem?_attach, hf.getElem?, Option.map_some, if_pos hlast, hn']
      · rw [withName, if_neg (by simpa [hf.isNamed] using hisNamed), ← hn', ownName, hdraft]
        rfl

/-- An outline that is complete has read all tokens, and the draft of it is what they say. -/
theorem Follows.run {outcome : Except Error Unit} (h : d.Follows nameAt T k place)
    (hk : k ≤ T.length)
    (hc : (Outline.ofTokens nameAt outcome place (T.drop k)).ending = .complete) :
    outcome = .ok () ∧
      (d.run (Outline.ofTokens nameAt outcome place (T.drop k)).events).Follows
        nameAt T T.length .body := by
  generalize htokens : T.drop k = tokens at hc
  fun_induction Outline.ofTokens nameAt outcome place tokens generalizing k d
  case case3 houtcome =>
    obtain rfl := Nat.le_antisymm hk (List.drop_eq_nil_iff.1 htokens)
    exact ⟨houtcome, h.endProperties hk fun t ht => by simp at ht⟩
  case case4 houtcome =>
    obtain rfl := Nat.le_antisymm hk (List.drop_eq_nil_iff.1 htokens)
    exact ⟨houtcome, h⟩
  case case5 ih =>
    obtain ⟨ht, hrest, hk⟩ := of_drop_eq_cons htokens
    exact ih (h.nop ht) hk hrest hc
  case case6 ih =>
    obtain ⟨ht, hrest, hk⟩ := of_drop_eq_cons htokens
    exact ih (h.startNode (by simp) ht) hk hrest hc
  case case10 hat ih =>
    obtain ⟨ht, hrest, hk⟩ := of_drop_eq_cons htokens
    exact ih (h.property ht hat) hk hrest hc
  case case11 ih =>
    obtain ⟨ht, hrest, hk'⟩ := of_drop_eq_cons htokens
    have hbody := h.endProperties hk fun t ht' => by
      obtain rfl := Option.some.inj (ht.symm.trans ht')
      rfl
    exact ih (hbody.startNode (by simp) ht) hk' hrest hc
  case case12 ih =>
    obtain ⟨ht, hrest, hk'⟩ := of_drop_eq_cons htokens
    have hbody := h.endProperties hk fun t ht' => by
      obtain rfl := Option.some.inj (ht.symm.trans ht')
      rfl
    exact ih (hbody.endNode ht) hk' hrest hc
  case case14 ih =>
    obtain ⟨ht, hrest, hk⟩ := of_drop_eq_cons htokens
    exact ih (h.startNode (by simp) ht) hk hrest hc
  case case15 ih =>
    obtain ⟨ht, hrest, hk⟩ := of_drop_eq_cons htokens
    exact ih (h.endNode ht) hk hrest hc
  all_goals contradiction

end Draft

/-! ## Drafts of built trees -/

namespace Build

open Token

/-- The records of a tree are the draft of its blob's outline. -/
theorem draft_of_build {b : Blob} {heap : Heap} {t : Tree} (h : (build b heap).result = .ok t) :
    t.records.map NodeRecord.draft = (Draft.start.run b.outline.events).nodes ∧
      b.outline.ending = .complete ∧ t.blob = b := by
  obtain ⟨p, hp, -, hblob, -, hrecords⟩ := populate_of_build h
  obtain ⟨hrun, hending⟩ := populate_eq_ok hp
  obtain ⟨hdraft, -, -⟩ := Populating.run_eq_ok
    (fun _ => startsWithNode_of_complete hending (List.append_nil _).symm) hrun
  rw [hrecords]
  exact ⟨congrArg Draft.nodes hdraft, hending, hblob⟩

theorem getElem?_draft_index {nodes : List DraftNode} {t : Tree} {n : Node}
    (hdraft : t.records.map NodeRecord.draft = nodes) (hn : n.tree = t) :
    nodes[n.index]? = some n.record.draft := by
  subst hn hdraft
  rw [List.getElem?_map, List.getElem?_eq_getElem n.index_lt]
  rfl

theorem exists_node_of_draft {nodes : List DraftNode} {t : Tree} {i : Nat} {m : DraftNode}
    (hdraft : t.records.map NodeRecord.draft = nodes) (hm : nodes[i]? = some m) :
    ∃ n : Node, n.tree = t ∧ n.index = i ∧ n.record.draft = m := by
  have hi : i < t.records.length := by
    have := (List.getElem?_eq_some_iff.1 hm).1
    rwa [← hdraft, List.length_map] at this
  refine ⟨⟨t, i, hi⟩, rfl, rfl, ?_⟩
  have hn := getElem?_draft_index hdraft (n := ⟨t, i, hi⟩) rfl
  exact Option.some.inj (hn.symm.trans hm)

theorem follows_of_build {b : Blob} {heap : Heap} {t : Tree} (h : (build b heap).result = .ok t) :
    (Draft.start.run b.outline.events).Follows (fun off => b.stringAt off.toUInt64)
      b.tokens.tokens b.tokens.tokens.length .body := by
  obtain ⟨-, hending, -⟩ := draft_of_build h
  exact ((Draft.follows_start (fun off => b.stringAt off.toUInt64) b.tokens.tokens).run
    (Nat.zero_le _) hending).2

theorem length_records_of_build {b : Blob} {heap : Heap} {t : Tree}
    (h : (build b heap).result = .ok t) : t.records.length = begins b.tokens.tokens := by
  have hlength := (follows_of_build h).length_nodes
  rwa [List.take_length, ← (draft_of_build h).1, List.length_map] at hlength

end Build
end Devicetree
