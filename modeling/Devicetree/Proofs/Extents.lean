import Devicetree.Proofs.Listings
import Devicetree.Proofs.Packing
import Devicetree.Proofs.Routing
import Devicetree.Proofs.Scans

/-!
# Extents

A node's position comes from the root, from a link or from a search, and all of these lead to
records, which fill the block without reaching each other or the mark behind them all. So whatever
is read through a node or a property that a caller can hold is inside the block.
-/

namespace Devicetree

/-! ## What a caller can hold -/

/-- The nodes that a caller can get from a tree, asking in any order. A search may start behind a
node of another tree. -/
inductive Tree.Obtains (t : Tree) : Node → Prop
  | nodes {n : Node} : n ∈ t.nodes → t.Obtains n
  | compatible {name : String} {n : Node} : n ∈ t.compatibleNodes name → t.Obtains n
  | ask {after : Option Node} {query : Query} {n : Node} {entry : Option Nat} :
      (∀ m ∈ after, m.tree.isSame t = true → t.Obtains m) →
      t.ask after query = some (n, entry) → t.Obtains n
  | following {m n : Node} : t.Obtains m → n ∈ m.following → t.Obtains n
  | followingCompatible {name : String} {m n : Node} :
      t.Obtains m → n ∈ m.followingCompatible name → t.Obtains n
  | parent {m n : Node} : t.Obtains m → m.parent = some n → t.Obtains n
  | children {m n : Node} : t.Obtains m → n ∈ m.children → t.Obtains n
  | nextChild {m n : Node} {previous : Option Node} :
      t.Obtains m → (∀ c ∈ previous, c.tree.isSame t = true → t.Obtains c) →
      m.nextChild previous = some n → t.Obtains n
  | interruptParent {m n : Node} : t.Obtains m → m.interruptParent.value = some n → t.Obtains n

/-- What is asserted wherever a record is read: it starts at a multiple of eight and ends within
the size of the tree. -/
def Tree.Holds (t : Tree) (offset : UInt32) (length : Nat) : Prop :=
  offset.toNat % 8 = 0 ∧ offset.toNat + length ≤ t.size

/-- The record is inside the block. So is its value, if the value is stored behind it; what is
stored about that value says where it is, and what is read there is what was written. -/
structure Property.InBounds (p : Property) : Prop where
  record : p.node.tree.Holds p.record.offset propertyRecordSize
  valueOffset : p.record.isInline = true →
    p.record.valueOffset.toNat = p.record.offset.toNat + propertyRecordSize
  valueLength : p.record.isInline = true → p.record.valueLength.toNat = p.record.value.length
  stop : p.record.isInline = true →
    p.record.valueOffset.toNat + p.record.valueLength.toNat ≤ p.node.tree.size
  value : p.value = p.record.value

def NodeLinks.targets (l : NodeLinks) : List Nat :=
  [l.parent, l.firstChild, l.lastChild, l.nextSibling, l.next].filterMap id

/-- The node's record, its path and its properties are inside the block, and its links lead to
records. -/
structure Node.InBounds (n : Node) : Prop where
  record : n.tree.Holds n.record.offset nodeRecordSize
  path : n.record.offset.toNat + nodeRecordSize + n.pathBytes.length ≤ n.tree.size
  properties : ∀ p ∈ n.properties, p.InBounds
  links : ∀ i ∈ n.record.links.targets, i < n.tree.records.length

variable {t : Tree} {m n : Node}

namespace Node

theorem mem_of_mem_follow {link : NodeRecord → Option Nat} {next : Option Nat} {l : List Node}
    (h : n ∈ follow link next l) : n ∈ l := by
  induction l generalizing next with
  | nil => contradiction
  | cons m rest ih =>
    unfold follow at h
    split at h
    · rcases List.mem_cons.1 h with rfl | h
      · exact List.mem_cons_self
      · exact List.mem_cons_of_mem _ (ih h)
    · exact List.mem_cons_of_mem _ (ih h)

theorem tree_of_mem_following (h : n ∈ m.following) : n.tree = m.tree :=
  Tree.mem_places.1 (mem_of_mem_follow h)

theorem tree_of_mem_children (h : n ∈ m.children) : n.tree = m.tree :=
  Tree.mem_places.1 (mem_of_mem_follow h)

end Node

namespace Tree

theorem tree_of_mem_nodes (h : n ∈ t.nodes) : n.tree = t :=
  mem_places.1 (Node.mem_of_mem_follow h)

theorem tree_of_mem_scan {after : Option Node}
    (hafter : ∀ m ∈ after, m.tree.isSame t = true → m.tree = t) (h : n ∈ t.scan after) :
    n.tree = t := by
  cases after with
  | none => exact tree_of_mem_nodes h
  | some m =>
    rw [scan] at h
    split at h
    · rename_i hsame
      exact (Node.tree_of_mem_following h).trans (hafter m rfl hsame)
    · contradiction

theorem tree_of_ask {after : Option Node} {query : Query} {entry : Option Nat}
    (hafter : ∀ m ∈ after, m.tree.isSame t = true → m.tree = t)
    (h : t.ask after query = some (n, entry)) : n.tree = t := by
  have hgoal : ∀ g : Goal, t.ask after g.query = some (n, entry) → n.tree = t := by
    intro g hg
    rw [ask_query] at hg
    obtain ⟨m, hm, heq⟩ := Option.map_eq_some_iff.1 hg
    obtain rfl : m = n := by simpa using congrArg Prod.fst heq
    exact tree_of_mem_scan hafter (List.mem_of_find?_eq_some hm)
  cases query with
  | root =>
    cases h
    rfl
  | path path =>
    obtain ⟨m, hm, heq⟩ := Option.map_eq_some_iff.1 h
    cases heq
    exact tree_of_mem_nodes (List.mem_of_find?_eq_some hm)
  | name name => exact hgoal (.name name) h
  | type deviceType => exact hgoal (.type deviceType) h
  | phandle handle => exact hgoal (.phandle handle) h
  | compatible deviceType name => exact hgoal (.compatible deviceType name) h
  | table table => exact hgoal (.table table) h

theorem tree_of_nextChild {previous : Option Node}
    (hprevious : ∀ c ∈ previous, c.tree.isSame m.tree = true → c.tree = m.tree)
    (h : m.nextChild previous = some n) : n.tree = m.tree := by
  have hnode : ∀ {s : Tree} {link : Option Nat}, link.bind s.node? = some n → n.tree = s := by
    intro s link hlink
    obtain ⟨i, -, hi⟩ := Option.bind_eq_some_iff.1 hlink
    exact (node?_eq_some_iff.1 hi).1
  cases previous with
  | none => exact hnode h
  | some c =>
    rw [Node.nextChild] at h
    split at h
    · rename_i hsame
      exact (hnode h).trans (hprevious c rfl hsame)
    · contradiction

/-- Whatever a caller gets from a tree is a node of that tree. -/
theorem Obtains.tree_eq (hlinked : Linked t.links) (h : t.Obtains n) : n.tree = t := by
  induction h with
  | nodes h => exact tree_of_mem_nodes h
  | compatible h => exact tree_of_mem_nodes (List.mem_of_mem_filter h)
  | ask _ h ih => exact tree_of_ask ih h
  | following _ h ih => exact (Node.tree_of_mem_following h).trans ih
  | followingCompatible _ h ih =>
    exact (Node.tree_of_mem_following (List.mem_of_mem_filter h)).trans ih
  | parent _ h ih => exact (Node.parent_eq_some_iff.1 h).1.trans ih
  | children _ h ih => exact (Node.tree_of_mem_children h).trans ih
  | nextChild _ _ h ih ihp =>
    subst ih
    exact tree_of_nextChild ihp h
  | interruptParent _ h ih => exact (Node.tree_of_interruptParent (ih ▸ hlinked) h).trans ih

end Tree

/-! ## Bounds -/

theorem Linked.target_lt {l : List NodeLinks} (h : Linked l) {i j : Nat} {links : NodeLinks}
    (hlinks : l[j]? = some links) (hi : i ∈ links.targets) : i < l.length := by
  have hj := (List.getElem?_eq_some_iff.1 hlinks).1
  have hchild : ∀ {p}, i ∈ childrenAt l p → i < l.length := fun hi =>
    lt_of_parentAt (mem_childrenAt.1 hi)
  simp only [NodeLinks.targets, List.mem_filterMap, List.mem_cons, List.not_mem_nil, or_false,
    id_eq] at hi
  obtain ⟨link, rfl | rfl | rfl | rfl | rfl, hi⟩ := hi
  · have hparent : parentAt l j = some i := by rw [parentAt, hlinks, Option.bind_some, hi]
    exact Nat.lt_trans (h.parent_lt hparent) hj
  · rw [h.firstChild hlinks] at hi
    exact hchild (List.mem_of_head? hi)
  · rw [h.lastChild hlinks] at hi
    exact hchild (List.mem_of_getLast? hi)
  · rw [h.nextSibling hlinks] at hi
    obtain ⟨p, -, hi⟩ := Option.bind_eq_some_iff.1 hi
    exact hchild (List.mem_of_find?_eq_some hi)
  · rw [h.next hlinks] at hi
    split at hi
    · cases hi
      assumption
    · contradiction

theorem Property.inBounds {p : Property} (hsize : p.node.tree.size < 2 ^ 32)
    (haligned : p.record.offset.toNat % 8 = 0) (hend : p.record.interval.stop ≤ p.node.tree.size)
    (hvalue : p.value = p.record.value) : p.InBounds := by
  have hlt := Nat.lt_of_le_of_lt hend hsize
  have hoffset := PropertyRecord.toNat_valueOffset hlt
  have hlength := PropertyRecord.toNat_valueLength hlt
  simp only [Interval.stop, PropertyRecord.interval] at hend
  constructor
  case record =>
    refine ⟨haligned, ?_⟩
    split at hend <;> omega
  case valueOffset => exact fun _ => hoffset
  case valueLength => exact hlength
  case stop =>
    intro hinline
    rw [if_pos hinline, ← Nat.add_assoc] at hend
    rwa [hoffset, hlength hinline]
  case value => exact hvalue

theorem Node.inBounds (hlinked : Linked n.tree.links) (hsize : n.tree.size < 2 ^ 32)
    (hintervals : ∀ i ∈ n.record.intervals, i.offset.toNat % 8 = 0 ∧ i.stop ≤ n.tree.size)
    (hvalues : ∀ p ∈ n.properties, p.value = p.record.value) : n.InBounds := by
  have hnode := hintervals n.record.interval List.mem_cons_self
  have hstop : n.record.offset.toNat + (nodeRecordSize + n.record.path.length) ≤ n.tree.size :=
    hnode.2
  constructor
  case record => exact ⟨hnode.1, by omega⟩
  case path =>
    rw [pathBytes]
    omega
  case links =>
    intro i hi
    rw [← Tree.length_links]
    exact hlinked.target_lt n.getElem?_links hi
  case properties =>
    intro p hp
    have hvalue := hvalues p hp
    obtain ⟨r, hr, rfl⟩ := List.mem_map.1 hp
    have hmem : r.interval ∈ n.record.intervals :=
      List.mem_cons_of_mem _ (List.mem_map_of_mem hr)
    obtain ⟨haligned, hend⟩ := hintervals r.interval hmem
    exact Property.inBounds hsize haligned hend hvalue

namespace Build

open Token

variable {b : Blob} {heap : Heap} {size : Nat} {p : Populating}

theorem exists_lengths_of_populate (hp : populate b size = .ok p) {k : Nat} {name : Bytes}
    (hname : b.tokens.tokens[k]? = some (.beginNode name)) :
    ∃ r listed, p.records[begins (b.tokens.tokens.take k)]? = some r ∧
      r.path = Path.join ((r.parent.bind fun i => p.records[i]?).map NodeRecord.path) name ∧
      Named (fun off => b.stringAt off.toUInt64) (header b.tokens.tokens k) listed ∧
      r.intervals.map Interval.length = recordLengths r.path listed := by
  obtain ⟨r, listed, hr, hpath, hnamed, hlisted⟩ := exists_lists_of_populate hp hname
  exact ⟨r, listed, hr, hpath, hnamed, hlisted.lengths_eq⟩

/-- A tree is read inside its block through everything that a caller can hold. -/
theorem inBounds_of_build {t : Tree} (h : (build b heap).result = .ok t)
    (hsize : t.size < 2 ^ 32) {n : Node} (hn : t.Obtains n) : n.InBounds := by
  obtain ⟨hlinked, -, -⟩ := linked_of_build h
  obtain ⟨p, hp, hm, -, -, hrecords⟩ := populate_of_build h
  have hpacked := isPacked_of_populate hm hp
  obtain rfl := hn.tree_eq hlinked
  refine Node.inBounds hlinked hsize (fun i hi => ?_) fun q hq =>
    (readsBack_of_build h hsize).value_eq hq
  have hmem : i ∈ p.intervals := by
    rw [Populating.intervals, ← hrecords]
    exact List.mem_flatMap.2 ⟨n.record, List.get_mem _ _, hi⟩
  exact ⟨hpacked.aligned i hmem, hpacked.stop_le i hmem⟩

theorem offset_root_of_build {t : Tree} (h : (build b heap).result = .ok t) :
    t.root.record.offset = 0 := by
  obtain ⟨p, hp, hm, -, -, hrecords⟩ := populate_of_build h
  obtain ⟨i, hi, hoffset⟩ := (isPacked_of_populate hm hp).offset_head
  have hroot : p.records.head? = some t.root.record := by
    rw [← hrecords, List.head?_eq_getElem?]
    exact List.getElem?_eq_getElem t.root.index_lt
  obtain ⟨rest, hrest⟩ := List.head?_eq_some_iff.1 hroot
  rw [Populating.intervals, hrest, List.flatMap_cons, NodeRecord.intervals] at hi
  obtain rfl : t.root.record.interval = i := by simpa using hi
  exact hoffset

/-- Both passes place the records in document order: each node's with its path, then one for each
of the properties that the blob lists for it, then one for its name if none of them is its name.
They lie one behind the other, at multiples of eight, from the root's at the beginning of the block
to the measured size. So every node that can be had from a tree of the blob is read inside the
block, and so are its path, its properties and the values stored behind them. -/
theorem extents_of_measure (hm : (measure b heap).2 = .ok size) (hsize : size < 2 ^ 32) :
    ∃ p, populate b size = .ok p ∧
      (Measuring.start.run heap b.outline.events).last.reserved.reverse = p.intervals ∧
      IsPacked p.intervals size ∧ p.records.length = begins b.tokens.tokens ∧
      (∀ k name, b.tokens.tokens[k]? = some (.beginNode name) →
        ∃ r listed, p.records[begins (b.tokens.tokens.take k)]? = some r ∧
          r.path = Path.join ((r.parent.bind fun i => p.records[i]?).map NodeRecord.path) name ∧
          Named (fun off => b.stringAt off.toUInt64) (header b.tokens.tokens k) listed ∧
          r.intervals.map Interval.length = recordLengths r.path listed) ∧
      ∀ heap' t, (build b heap').result = .ok t → t.size = size ∧ t.records = p.records ∧
        t.root.record.offset = 0 ∧ ∀ n, t.Obtains n → n.InBounds := by
  obtain ⟨p, hp, -⟩ := populate_of_measure hm
  obtain ⟨hrun, hending⟩ := populate_eq_ok hp
  refine ⟨p, hp, ?_, isPacked_of_populate hm hp, ?_, fun k name => exists_lengths_of_populate hp,
    ?_⟩
  · obtain ⟨-, q, hq, -, hreserved, -⟩ := run_agrees hm (List.append_nil _).symm
    obtain rfl := Except.ok.inj (hq.symm.trans hrun)
    exact hreserved.symm
  · rw [← p.length_draft, (Populating.lists_of_complete hending hrun).follows.length_nodes,
      List.take_length]
  · intro heap' t ht
    obtain ⟨p', hp', hm', -, -, hrecords⟩ := populate_of_build ht
    obtain rfl := size_eq_of_measure hm hm'
    obtain rfl := Except.ok.inj (hp.symm.trans hp')
    exact ⟨rfl, hrecords, offset_root_of_build ht, fun n hn => inBounds_of_build ht hsize hn⟩

theorem extents_of_measure_sample :
    ∃ t p, (build .sample (.fresh 0)).result = .ok t ∧ t.size = 540 ∧
      populate .sample 540 = .ok p ∧ IsPacked p.intervals 540 ∧ ∀ n ∈ t.nodes, n.InBounds := by
  have hbuilt : (build .sample (.fresh 0)).result.toOption.map Tree.size = some 540 := by
    decide +kernel
  obtain ⟨t, ht, hsize⟩ := exists_of_result hbuilt
  obtain ⟨-, -, hm, -⟩ := populate_of_build ht
  obtain ⟨p, hp, -, hpacked, -, -, htrees⟩ := extents_of_measure (hsize ▸ hm) (by decide)
  obtain ⟨-, -, -, hinside⟩ := htrees _ t ht
  exact ⟨t, p, ht, hsize, hp, hpacked, fun n hn => hinside n (.nodes hn)⟩

end Build
end Devicetree
