import Devicetree.Proofs.Walks
import Mathlib.Data.List.Nodup

/-!
# Relatives

What the records of a built tree say about links, said of its nodes: parents, children and the
order of the document tell one story.
-/

namespace Devicetree

def Tree.links (t : Tree) : List NodeLinks := t.records.map NodeRecord.links

theorem Build.linked_of_build {b : Blob} {heap : Heap} {t : Tree}
    (h : (build b heap).result = .ok t) :
    Linked t.links ∧ IsPreorder t.links ∧ t.nodeCount = t.records.length := by
  obtain ⟨p, hp, -, -, hcount, hrecords⟩ := populate_of_build h
  have hwell := Populating.wellLinked_start.run (populate_eq_ok hp).1
  have hlinks : t.links = p.links := congrArg (List.map NodeRecord.links) hrecords
  rw [hlinks, hcount, hrecords]
  exact ⟨hwell.linked, hwell.isPreorder, hwell.nodeCount_eq⟩

theorem find?_lt_range (i k : Nat) :
    (List.range k).find? (i < ·) = if i + 1 < k then some (i + 1) else none := by
  split
  · rename_i hi
    apply List.find?_range_eq_some.2
    refine ⟨by simp, List.mem_range.2 hi, ?_⟩
    intro j hj
    simpa using Nat.le_of_lt_succ hj
  · rename_i hi
    rw [List.find?_eq_none]
    intro j hj
    have := List.mem_range.1 hj
    simp only [decide_eq_true_eq]
    omega

theorem find?_lt_of_getElem? {m : List Nat} (hm : m.Pairwise (· < ·)) {i a : Nat}
    (ha : m[i]? = some a) : m.find? (a < ·) = m[i + 1]? := by
  induction m generalizing i with
  | nil => simp at ha
  | cons b m ih =>
    obtain ⟨hb, hm⟩ := List.pairwise_cons.1 hm
    cases i with
    | zero =>
      obtain rfl : b = a := by simpa using ha
      cases m with
      | nil => simp
      | cons d m => simp [hb d List.mem_cons_self]
    | succ i =>
      have hlt := hb a (List.mem_of_getElem? (l := m) ha)
      rw [List.find?_cons_of_neg (by simpa using Nat.le_of_lt hlt)]
      exact ih hm ha

variable {t : Tree} {n c p : Node} {i j : Nat}

namespace Tree

@[simp] theorem length_links (t : Tree) : t.links.length = t.records.length := List.length_map _

theorem getElem?_places_eq_some_iff : t.places[i]? = some n ↔ n.tree = t ∧ n.index = i := by
  rw [getElem?_places, node?_eq_some_iff]

theorem mem_places : n ∈ t.places ↔ n.tree = t := by
  rw [List.mem_iff_getElem?]
  simp only [getElem?_places_eq_some_iff]
  simp

theorem nodup_places (t : Tree) : t.places.Nodup := by
  have hinj : Function.Injective fun (i : Fin t.records.length) => (⟨t, i, i.isLt⟩ : Node) :=
    fun i j hij => Fin.ext (congrArg Node.index hij)
  exact (List.nodup_finRange _).map hinj

def nodesAt (t : Tree) (m : List Nat) : List Node := m.filterMap t.node?

variable {m : List Nat}

theorem getElem?_nodesAt (hm : ∀ i ∈ m, i < t.records.length) (i : Nat) :
    (t.nodesAt m)[i]? = m[i]?.bind t.node? := by
  unfold nodesAt
  induction m generalizing i with
  | nil => rfl
  | cons a m ih =>
    have ha : t.node? a = some ⟨t, a, hm a List.mem_cons_self⟩ := node?_eq_some_iff.2 ⟨rfl, rfl⟩
    rw [List.filterMap_cons_some ha]
    cases i with
    | zero => exact ha.symm
    | succ i => exact ih (fun i hi => hm i (List.mem_cons_of_mem _ hi)) i

theorem mem_nodesAt : n ∈ t.nodesAt m ↔ n.tree = t ∧ n.index ∈ m := by
  unfold nodesAt
  rw [List.mem_filterMap]
  simp only [node?_eq_some_iff]
  constructor
  · rintro ⟨i, hi, rfl, rfl⟩
    exact ⟨rfl, hi⟩
  · rintro ⟨rfl, hi⟩
    exact ⟨n.index, hi, rfl, rfl⟩

theorem nodesAt_range (t : Tree) : t.nodesAt (List.range t.records.length) = t.places := by
  apply List.ext_getElem?
  intro i
  rw [getElem?_nodesAt fun i => List.mem_range.1, getElem?_places]
  by_cases hi : i < t.records.length
  · simp [hi]
  · simp [hi, node?]

end Tree

namespace Node

theorem eq_of_index_eq {m : Node} (hm : m.tree = t) (hn : n.tree = t)
    (h : m.index = n.index) : m = n := by
  have hnode := Tree.node?_eq_some_iff.2 ⟨hm, h⟩
  exact Option.some.inj (hnode.symm.trans (Tree.node?_eq_some_iff.2 ⟨hn, rfl⟩))

theorem getElem?_links (n : Node) : n.tree.links[n.index]? = some n.record.links := by
  unfold Tree.links record
  rw [List.getElem?_map, List.getElem?_eq_getElem n.index_lt]
  rfl

theorem parentAt_index (n : Node) : parentAt n.tree.links n.index = n.record.parent := by
  rw [parentAt, getElem?_links]
  rfl

theorem parent_eq_some_iff :
    c.parent = some p ↔ p.tree = c.tree ∧ parentAt c.tree.links c.index = some p.index := by
  rw [parentAt_index, parent, Option.bind_eq_some_iff]
  simp only [Tree.node?_eq_some_iff]
  constructor
  · rintro ⟨i, hi, htree, rfl⟩
    exact ⟨htree, hi⟩
  · rintro ⟨htree, hi⟩
    exact ⟨p.index, hi, htree, rfl⟩

variable {link : NodeRecord → Option Nat} {m : List Nat} {k : Nat}

/-- Following links that lead from each position of an increasing list to the next one finds the
nodes of the list. -/
theorem follow_head? (hm : m.Pairwise (· < ·)) (hmem : ∀ i ∈ m, k ≤ i ∧ i < t.records.length)
    (hlink : ∀ n : Node, n.tree = t → n.index ∈ m → link n.record = m.find? (n.index < ·)) :
    follow link m.head? (t.places.drop k) = t.nodesAt m := by
  induction hr : t.places.drop k generalizing k m with
  | nil =>
    have hlength := List.drop_eq_nil_iff.1 hr
    rw [Tree.length_places] at hlength
    rw [List.eq_nil_iff_forall_not_mem.2 fun i hi => absurd (hmem i hi) (by omega)]
    rfl
  | cons n rest ih =>
    have hplace : t.places[k]? = some n := by
      rw [← List.head?_drop, hr]
      rfl
    obtain ⟨htree, hindex⟩ := Tree.getElem?_places_eq_some_iff.1 hplace
    have hrest : t.places.drop (k + 1) = rest := by
      rw [← List.tail_drop, hr]
      rfl
    cases m with
    | nil =>
      simp only [follow, List.head?_nil]
      exact ih (m := []) .nil (by simp) (by simp) hrest
    | cons a m =>
      obtain ⟨ham, hm⟩ := List.pairwise_cons.1 hm
      simp only [follow, List.head?_cons, Option.some.injEq, hindex]
      split
      · rename_i hak
        subst hak
        have hnext : link n.record = m.head? := by
          rw [hlink n htree (hindex ▸ List.mem_cons_self), hindex]
          cases m with
          | nil => simp
          | cons b m => simp [ham b List.mem_cons_self]
        have hnode : t.node? a = some n := Tree.node?_eq_some_iff.2 ⟨htree, hindex⟩
        rw [hnext, ih hm (fun i hi => ⟨ham i hi, (hmem i (List.mem_cons_of_mem _ hi)).2⟩) ?_ hrest]
        · exact (List.filterMap_cons_some hnode).symm
        · intro n' htree' hindex'
          rw [hlink n' htree' (List.mem_cons_of_mem _ hindex'), List.find?_cons_of_neg]
          simpa using Nat.le_of_lt (ham _ hindex')
      · rename_i hak
        apply ih (m := a :: m) (List.pairwise_cons.2 ⟨ham, hm⟩) _ hlink hrest
        intro i hi
        have ha := (hmem a List.mem_cons_self).1
        have hlt := (hmem i hi).2
        rcases List.mem_cons.1 hi with rfl | hi
        · omega
        · have hai := ham i hi
          omega

theorem children_eq (h : Linked t.links) (hn : n.tree = t) :
    n.children = t.nodesAt (childrenAt t.links n.index) := by
  subst hn
  have hfirst : n.record.firstChild = (childrenAt n.tree.links n.index).head? :=
    h.firstChild n.getElem?_links
  unfold children
  rw [hfirst]
  apply follow_head? (k := 0) (pairwise_childrenAt _ _)
  · intro i hi
    have hlt := lt_of_parentAt (mem_childrenAt.1 hi)
    rw [Tree.length_links] at hlt
    exact ⟨Nat.zero_le i, hlt⟩
  · intro c hc hmem
    have hparent : c.record.parent = some n.index := by
      rw [← parentAt_index, hc]
      exact mem_childrenAt.1 hmem
    have hnext : c.record.nextSibling = c.record.parent.bind fun p =>
        (childrenAt n.tree.links p).find? (c.index < ·) :=
      h.nextSibling (hc ▸ c.getElem?_links)
    rw [hnext, hparent, Option.bind_some]

theorem nextSibling_eq (h : Linked t.links) (hc : c.tree = t)
    (hparent : parentAt t.links c.index = some i) :
    c.nextSibling = ((childrenAt t.links i).find? (c.index < ·)).bind t.node? := by
  subst hc
  have hnext : c.record.nextSibling = c.record.parent.bind fun p =>
      (childrenAt c.tree.links p).find? (c.index < ·) :=
    h.nextSibling c.getElem?_links
  rw [nextSibling, hnext, ← parentAt_index, hparent, Option.bind_some]

theorem next_eq (h : Linked n.tree.links) : n.next = n.tree.node? (n.index + 1) := by
  have hnext : n.record.next =
      if n.index + 1 < n.tree.links.length then some (n.index + 1) else none :=
    h.next n.getElem?_links
  rw [next, hnext, Tree.length_links]
  split
  · rfl
  · rename_i hlt
    rw [Tree.node?, dif_neg hlt]
    rfl

theorem mem_children_iff (h : Linked p.tree.links) : c ∈ p.children ↔ c.parent = some p := by
  rw [children_eq h rfl, Tree.mem_nodesAt, mem_childrenAt, parent_eq_some_iff]
  constructor
  · rintro ⟨htree, hc⟩
    exact ⟨htree.symm, htree ▸ hc⟩
  · rintro ⟨htree, hc⟩
    exact ⟨htree.symm, htree ▸ hc⟩

theorem getElem?_children (h : Linked p.tree.links) (i : Nat) :
    p.children[i]? = (childrenAt p.tree.links p.index)[i]?.bind p.tree.node? := by
  rw [children_eq h rfl, Tree.getElem?_nodesAt]
  intro j hj
  rw [← Tree.length_links]
  exact lt_of_parentAt (mem_childrenAt.1 hj)

theorem nextChild_none_eq (h : Linked p.tree.links) : p.nextChild none = p.children.head? := by
  rw [List.head?_eq_getElem?, getElem?_children h, ← List.head?_eq_getElem?,
    ← h.firstChild p.getElem?_links]
  rfl

theorem nextChild_some_eq (h : Linked p.tree.links) (hc : p.children[i]? = some c) :
    p.nextChild (some c) = p.children[i + 1]? := by
  rw [getElem?_children h] at hc ⊢
  obtain ⟨j, hj, hnode⟩ := Option.bind_eq_some_iff.1 hc
  obtain ⟨htree, rfl⟩ := Tree.node?_eq_some_iff.1 hnode
  have hparent := mem_childrenAt.1 (List.mem_of_getElem? hj)
  rw [← find?_lt_of_getElem? (pairwise_childrenAt _ _) hj, ← nextSibling_eq h htree hparent]
  simp [nextChild, Tree.isSame, htree]

theorem transGen_parent_iff :
    Relation.TransGen (fun c q : Node => c.parent = some q) c p ↔
      p.tree = c.tree ∧ Below c.tree.links p.index c.index := by
  constructor
  · intro h
    induction h using Relation.TransGen.head_induction_on with
    | single hc =>
      obtain ⟨htree, hparent⟩ := parent_eq_some_iff.1 hc
      exact ⟨htree, .single hparent⟩
    | head hc _ ih =>
      obtain ⟨htree, hparent⟩ := parent_eq_some_iff.1 hc
      rw [htree] at ih
      exact ⟨ih.1, .head hparent ih.2⟩
  · rintro ⟨htree, h⟩
    obtain ⟨t, j, hj⟩ := c
    dsimp only at htree h
    induction h using Relation.TransGen.head_induction_on with
    | single hparent => exact .single (parent_eq_some_iff.2 ⟨htree, hparent⟩)
    | @head _ q hparent hq ih =>
      have hlt : q < t.records.length := by simpa using lt_of_below hq
      exact .head (b := ⟨t, q, hlt⟩) (parent_eq_some_iff.2 ⟨rfl, hparent⟩) (ih hlt)

end Node

theorem Tree.nodes_eq_places (h : Linked t.links) : t.nodes = t.places := by
  have hpos : 0 < t.records.length := List.length_pos_iff.2 t.records_ne
  have hhead : (List.range t.records.length).head? = some 0 := by
    rw [List.head?_range, if_neg (Nat.ne_of_gt hpos)]
  rw [nodes, ← hhead]
  apply Eq.trans _ t.nodesAt_range
  apply Node.follow_head? (k := 0) List.pairwise_lt_range
    fun i hi => ⟨Nat.zero_le i, List.mem_range.1 hi⟩
  intro n hn _
  have hnext : n.record.next = if n.index + 1 < t.links.length then some (n.index + 1) else none :=
    h.next (hn ▸ n.getElem?_links)
  rw [hnext, length_links, find?_lt_range]

theorem Walks.nodesAt {tops all : List Nat} (h : Linked t.links)
    (hw : Walks (childrenAt t.links) tops all) (hall : ∀ i ∈ all, i < t.records.length) :
    Walks Node.children (t.nodesAt tops) (t.nodesAt all) := by
  induction hw with
  | nil => exact .nil
  | @cons a below rest later _ _ ihbelow ihlater =>
    have ha : t.node? a = some ⟨t, a, hall a List.mem_cons_self⟩ :=
      Tree.node?_eq_some_iff.2 ⟨rfl, rfl⟩
    have hbelow := ihbelow fun i hi =>
      hall i (List.mem_cons_of_mem _ (List.mem_append_left _ hi))
    have hlater := ihlater fun i hi =>
      hall i (List.mem_cons_of_mem _ (List.mem_append_right _ hi))
    have hsplit : t.nodesAt (a :: below ++ later) =
        ⟨t, a, hall a List.mem_cons_self⟩ :: t.nodesAt below ++ t.nodesAt later := by
      unfold Tree.nodesAt
      rw [List.filterMap_append, List.filterMap_cons_some ha]
    rw [hsplit, show t.nodesAt (a :: rest) = _ from List.filterMap_cons_some ha]
    refine .cons ?_ hlater
    rw [Node.children_eq h rfl]
    exact hbelow

/-- The links of a tree agree with one another. -/
structure Tree.WellLinked (t : Tree) : Prop where
  length_nodes : t.nodes.length = t.nodeCount
  nodup_nodes : t.nodes.Nodup
  mem_nodes : ∀ n : Node, n ∈ t.nodes ↔ n.tree = t
  head?_nodes : t.nodes.head? = some t.root
  /-- Every node leads to the one behind it, and the last one nowhere. -/
  next : ∀ (i : Nat) (n : Node), t.nodes[i]? = some n → n.next = t.nodes[i + 1]?
  mem_children : ∀ p ∈ t.nodes, ∀ c : Node, c ∈ p.children ↔ c.parent = some p
  nodup_children : ∀ p ∈ t.nodes, p.children.Nodup
  sublist_children : ∀ p ∈ t.nodes, p.children.Sublist t.nodes
  nextChild_none : ∀ p ∈ t.nodes, p.nextChild none = p.children.head?
  nextChild_some : ∀ p ∈ t.nodes, ∀ (i : Nat) (c : Node), p.children[i]? = some c →
    p.nextChild (some c) = p.children[i + 1]?
  parent_lt : ∀ (i j : Nat) (p c : Node), t.nodes[i]? = some p → t.nodes[j]? = some c →
    c.parent = some p → i < j
  /-- What is inside a node stands right behind it. -/
  descendants : ∀ (i : Nat) (p : Node), t.nodes[i]? = some p → ∃ count, ∀ (j : Nat) (d : Node),
    t.nodes[j]? = some d →
      (Relation.TransGen (fun c q : Node => c.parent = some q) d p ↔ i < j ∧ j ≤ i + count)
  walks : Walks Node.children (t.nodes.filter fun n => n.parent.isNone) t.nodes

theorem Node.isNone_parent (h : Linked t.links) (hn : n.tree = t) :
    n.parent.isNone = decide (parentAt t.links n.index = none) := by
  subst hn
  cases hi : parentAt n.tree.links n.index with
  | none =>
    rw [parentAt_index] at hi
    simp [parent, hi]
  | some i =>
    have hlt := Nat.lt_trans (h.parent_lt hi) n.index_lt
    have hparent : n.parent = some ⟨n.tree, i, hlt⟩ := parent_eq_some_iff.2 ⟨rfl, hi⟩
    simp [hparent]

theorem Tree.filter_isNone_parent (h : Linked t.links) :
    t.places.filter (fun n => n.parent.isNone) = t.nodesAt
      ((List.range t.records.length).filter fun c => parentAt t.links c = none) := by
  rw [← nodesAt_range]
  unfold nodesAt
  rw [List.filter_filterMap, List.filterMap_filter]
  apply List.filterMap_congr
  intro i hi
  have hnode : t.node? i = some ⟨t, i, List.mem_range.1 hi⟩ := node?_eq_some_iff.2 ⟨rfl, rfl⟩
  rw [hnode, Option.filter_some, Node.isNone_parent h rfl]

theorem Tree.wellLinked (h : Linked t.links) (hpre : IsPreorder t.links)
    (hcount : t.nodeCount = t.records.length) : t.WellLinked := by
  have hnodes := nodes_eq_places h
  have hplace : ∀ (i : Nat) (n : Node), t.nodes[i]? = some n ↔ n.tree = t ∧ n.index = i := by
    intro i n
    rw [hnodes, getElem?_places_eq_some_iff]
  have hmem : ∀ n : Node, n ∈ t.nodes ↔ n.tree = t := by
    intro n
    rw [hnodes, mem_places]
  have hsublist : ∀ p ∈ t.nodes, p.children.Sublist t.nodes := by
    intro p hp
    rw [hnodes, ← nodesAt_range, Node.children_eq h ((hmem p).1 hp), ← length_links]
    exact List.filter_sublist.filterMap _
  constructor
  case length_nodes => rw [hnodes, length_places, hcount]
  case nodup_nodes => exact hnodes ▸ t.nodup_places
  case mem_nodes => exact hmem
  case head?_nodes =>
    rw [List.head?_eq_getElem?]
    exact (hplace 0 _).2 ⟨rfl, rfl⟩
  case next =>
    intro i n hn
    obtain ⟨rfl, rfl⟩ := (hplace i n).1 hn
    rw [hnodes, getElem?_places, Node.next_eq h]
  case mem_children =>
    intro p hp c
    obtain rfl := (hmem p).1 hp
    exact Node.mem_children_iff h
  case nodup_children =>
    intro p hp
    exact (hsublist p hp).nodup (hnodes ▸ t.nodup_places)
  case sublist_children => exact hsublist
  case nextChild_none =>
    intro p hp
    obtain rfl := (hmem p).1 hp
    exact Node.nextChild_none_eq h
  case nextChild_some =>
    intro p hp i c hc
    obtain rfl := (hmem p).1 hp
    exact Node.nextChild_some_eq h hc
  case parent_lt =>
    intro i j p c hp hc hparent
    obtain ⟨rfl, rfl⟩ := (hplace i p).1 hp
    obtain ⟨htree, rfl⟩ := (hplace j c).1 hc
    exact h.parent_lt (htree ▸ (Node.parent_eq_some_iff.1 hparent).2)
  case descendants =>
    intro i p hp
    obtain ⟨rfl, rfl⟩ := (hplace i p).1 hp
    have hindex : p.index < p.tree.links.length := by
      rw [length_links]
      exact p.index_lt
    obtain ⟨stop, hlt, -, hstop⟩ := exists_stop h hpre hindex
    refine ⟨stop - p.index - 1, ?_⟩
    intro j d hd
    obtain ⟨htree, rfl⟩ := (hplace j d).1 hd
    rw [Node.transGen_parent_iff, htree, hstop]
    constructor
    · rintro ⟨-, hj, hj'⟩
      omega
    · intro hj
      exact ⟨rfl, by omega⟩
  case walks =>
    have hwalks := (walks_range h hpre).nodesAt h fun i hi => by simpa using hi
    rw [hnodes, filter_isNone_parent h, ← nodesAt_range, ← length_links]
    exact hwalks

namespace Build

theorem getElem?_nodes_of_build {b : Blob} {heap : Heap} (h : (build b heap).result = .ok t) :
    t.nodes[i]? = some n ↔ n.tree = t ∧ n.index = i := by
  obtain ⟨hlinked, -, -⟩ := linked_of_build h
  rw [Tree.nodes_eq_places hlinked, Tree.getElem?_places_eq_some_iff]

theorem mem_nodes_of_build {b : Blob} {heap : Heap} (h : (build b heap).result = .ok t) :
    n ∈ t.nodes ↔ n.tree = t := by
  obtain ⟨hlinked, -, -⟩ := linked_of_build h
  rw [Tree.nodes_eq_places hlinked, Tree.mem_places]

theorem wellLinked_of_build {b : Blob} {heap : Heap} (h : (build b heap).result = .ok t) :
    t.WellLinked := by
  obtain ⟨hlinked, hpre, hcount⟩ := linked_of_build h
  exact Tree.wellLinked hlinked hpre hcount

theorem wellLinked_of_build_sample :
    ∃ t, (build .sample (.fresh 0)).result = .ok t ∧ t.nodeCount = 3 ∧ t.WellLinked := by
  obtain ⟨t, ht, hcount⟩ := exists_build_sample
  exact ⟨t, ht, hcount, wellLinked_of_build ht⟩

end Build
end Devicetree
