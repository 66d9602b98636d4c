import Devicetree.Proofs.Scans

/-!
# Match tables

A search for a table of names goes node by node and answers the first one that is compatible with
any of the names. Going name by name instead, and taking the earliest of the nodes that the names
are found at, comes to the same node. So the order of a table never decides which node is answered;
it decides which of the node's names is.
-/

namespace Devicetree

/-! ## Tables and single nodes -/

/-- A node is compatible with the name at a position of a table, and with none before it. -/
structure Node.MatchesAt (n : Node) (table : List String) (i : Nat) : Prop where
  entry : ∃ name, table[i]? = some name ∧ n.isCompatible name = true
  least : ∀ j < i, ∀ name, table[j]? = some name → n.isCompatible name = false

namespace Node

variable {n : Node} {table : List String} {i : Nat}

theorem matchTable_eq_some_iff : n.matchTable table = some i ↔ n.MatchesAt table i := by
  rw [matchTable, List.findIdx?_eq_some_iff_getElem]
  constructor
  · rintro ⟨hi, hentry, hleast⟩
    refine ⟨⟨table[i], List.getElem?_eq_getElem hi, hentry⟩, ?_⟩
    intro j hj name hname
    obtain ⟨_, rfl⟩ := List.getElem?_eq_some_iff.1 hname
    exact Bool.eq_false_iff.2 (hleast j hj)
  · rintro ⟨⟨name, hname, hentry⟩, hleast⟩
    obtain ⟨hi, rfl⟩ := List.getElem?_eq_some_iff.1 hname
    refine ⟨hi, hentry, ?_⟩
    intro j hj
    exact Bool.eq_false_iff.1 (hleast j hj _ (List.getElem?_eq_getElem (Nat.lt_trans hj hi)))

theorem matchTable_eq_none_iff :
    n.matchTable table = none ↔ ∀ name ∈ table, n.isCompatible name = false :=
  List.findIdx?_eq_none_iff

/-- A name in the first of two tables goes before all those in the second. -/
theorem matchTable_append (n : Node) (first second : List String) :
    n.matchTable (first ++ second) =
      (n.matchTable first).or ((n.matchTable second).map (· + first.length)) :=
  List.findIdx?_append

end Node

/-! ## Tables and trees -/

namespace Tree

variable {t : Tree} {n m : Node} {after : Option Node} {table : List String} {name : String}
  {given : List Node} {i : Nat}

/-- The nodes that the names of a table are found at, each name looked for alone. -/
def singleMatches (t : Tree) (after : Option Node) (table : List String) : List Node :=
  table.filterMap (t.findCompatible after none)

def NotBehind (t : Tree) (n m : Node) : Prop :=
  ∃ i j : Nat, i ≤ j ∧ t.nodes[i]? = some n ∧ t.nodes[j]? = some m

/-- A node is one of those given, and no other of them comes before it in the tree. -/
structure IsEarliest (t : Tree) (n : Node) (given : List Node) : Prop where
  mem : n ∈ given
  notBehind : ∀ m ∈ given, t.NotBehind n m

theorem NotBehind.antisymm (hnodup : t.nodes.Nodup) (h : t.NotBehind n m) (h' : t.NotBehind m n) :
    n = m := by
  obtain ⟨i, j, hij, hi, hj⟩ := h
  obtain ⟨j', i', hji, hj', hi'⟩ := h'
  obtain rfl : i = i' :=
    (List.getElem?_inj (List.getElem?_eq_some_iff.1 hi).1 hnodup).1 (hi.trans hi'.symm)
  obtain rfl : j = j' :=
    (List.getElem?_inj (List.getElem?_eq_some_iff.1 hj).1 hnodup).1 (hj.trans hj'.symm)
  obtain rfl : i = j := Nat.le_antisymm hij hji
  exact Option.some.inj (hi.symm.trans hj)

theorem IsEarliest.eq (hnodup : t.nodes.Nodup) (h : t.IsEarliest n given)
    (h' : t.IsEarliest m given) : n = m :=
  (h.notBehind m h'.mem).antisymm hnodup (h'.notBehind n h.mem)

theorem scan_isSuffix (h : Linked t.links) (hafter : ∀ m ∈ after, m ∈ t.nodes) :
    t.scan after <:+ t.nodes := by
  cases after with
  | none => exact List.suffix_refl _
  | some m =>
    obtain ⟨earlier, later, hm⟩ := List.append_of_mem (hafter m rfl)
    rw [scan_of_nodes h hm, hm]
    exact ⟨earlier ++ [m], by simp⟩

theorem notBehind_of_scan {earlier later : List Node} (hsuffix : t.scan after <:+ t.nodes)
    (hscan : t.scan after = earlier ++ n :: later) (hm : m ∈ n :: later) : t.NotBehind n m := by
  obtain ⟨front, hfront⟩ := hsuffix
  rw [hscan, ← List.append_assoc] at hfront
  obtain ⟨k, hk⟩ := List.mem_iff_getElem?.1 hm
  refine ⟨(front ++ earlier).length, (front ++ earlier).length + k, Nat.le_add_right _ _, ?_, ?_⟩
  · rw [← hfront, List.getElem?_append_right (Nat.le_refl _), Nat.sub_self, List.getElem?_cons_zero]
  · rw [← hfront, List.getElem?_append_right (Nat.le_add_right _ _), Nat.add_sub_cancel_left, hk]

theorem findCompatible_eq_some_iff : t.findCompatible after none name = some n ↔
    n.isCompatible name = true ∧ ∃ earlier later, t.scan after = earlier ++ n :: later ∧
      ∀ m ∈ earlier, m.isCompatible name = false := by
  simp [findCompatible, List.find?_eq_some_iff_append]

theorem findCompatible_eq_none_iff : t.findCompatible after none name = none ↔
    ∀ m ∈ t.scan after, m.isCompatible name = false := by
  simp [findCompatible]

theorem findMatching_eq_some_iff : t.findMatching after table = some (n, i) ↔
    n.matchTable table = some i ∧ ∃ earlier later, t.scan after = earlier ++ n :: later ∧
      ∀ m ∈ earlier, m.matchTable table = none := by
  rw [findMatching, List.findSome?_eq_some_iff]
  simp only [Option.map_eq_some_iff, Option.map_eq_none_iff, Prod.mk.injEq]
  constructor
  · rintro ⟨earlier, _, later, hscan, ⟨_, hi, rfl, rfl⟩, hearlier⟩
    exact ⟨hi, earlier, later, hscan, hearlier⟩
  · rintro ⟨hi, earlier, later, hscan, hearlier⟩
    exact ⟨earlier, n, later, hscan, ⟨i, hi, rfl, rfl⟩, hearlier⟩

theorem findMatching_eq_none_iff : t.findMatching after table = none ↔
    ∀ name ∈ table, t.findCompatible after none name = none := by
  simp only [findMatching, List.findSome?_eq_none_iff, Option.map_eq_none_iff,
    Node.matchTable_eq_none_iff, findCompatible_eq_none_iff]
  exact ⟨fun h name hname m hm => h m hm name hname, fun h m hm name hname => h name hname m hm⟩

theorem isEarliest_of_findMatching (hsuffix : t.scan after <:+ t.nodes)
    (h : t.findMatching after table = some (n, i)) :
    t.IsEarliest n (t.singleMatches after table) := by
  obtain ⟨hi, earlier, later, hscan, hearlier⟩ := findMatching_eq_some_iff.1 h
  have hnone : ∀ m ∈ earlier, ∀ name ∈ table, m.isCompatible name = false := fun m hm =>
    Node.matchTable_eq_none_iff.1 (hearlier m hm)
  constructor
  case mem =>
    obtain ⟨name, hname, hcompatible⟩ := (Node.matchTable_eq_some_iff.1 hi).entry
    have hmem := List.mem_of_getElem? hname
    exact List.mem_filterMap.2 ⟨name, hmem, findCompatible_eq_some_iff.2
      ⟨hcompatible, earlier, later, hscan, fun m hm => hnone m hm name hmem⟩⟩
  case notBehind =>
    intro m hm
    obtain ⟨name, hname, hfind⟩ := List.mem_filterMap.1 hm
    obtain ⟨hcompatible, front, back, hscan', -⟩ := findCompatible_eq_some_iff.1 hfind
    have hm : m ∈ earlier ++ n :: later := by
      rw [← hscan, hscan']
      exact List.mem_append_right _ List.mem_cons_self
    rcases List.mem_append.1 hm with hm | hm
    · rw [hnone m hm name hname] at hcompatible
      contradiction
    · exact notBehind_of_scan hsuffix hscan hm

/-- A table is matched at the earliest of the nodes that its names are found at, with the first name
that this node is compatible with, and nowhere if none of the names is found. -/
structure MatchesEarliest (t : Tree) (after : Option Node) (table : List String) : Prop where
  fst_eq_some_iff : ∀ n, (t.findMatching after table).map Prod.fst = some n ↔
    t.IsEarliest n (t.singleMatches after table)
  eq_none_iff : t.findMatching after table = none ↔
    ∀ name ∈ table, t.findCompatible after none name = none
  entry : ∀ n i, t.findMatching after table = some (n, i) →
    n.matchTable table = some i ∧ n.MatchesAt table i

theorem matchesEarliest (h : Linked t.links) (hafter : ∀ m ∈ after, m ∈ t.nodes) :
    t.MatchesEarliest after table := by
  have hsuffix := scan_isSuffix h hafter
  have hnodup : t.nodes.Nodup := nodes_eq_places h ▸ t.nodup_places
  constructor
  case fst_eq_some_iff =>
    intro n
    constructor
    · intro hn
      obtain ⟨⟨_, i⟩, hfind, rfl⟩ := Option.map_eq_some_iff.1 hn
      exact isEarliest_of_findMatching hsuffix hfind
    · intro hn
      cases hfind : t.findMatching after table with
      | none =>
        obtain ⟨name, hname, hfound⟩ := List.mem_filterMap.1 hn.mem
        rw [findMatching_eq_none_iff.1 hfind name hname] at hfound
        contradiction
      | some answer =>
        obtain ⟨n', i⟩ := answer
        exact congrArg some ((isEarliest_of_findMatching hsuffix hfind).eq hnodup hn)
  case eq_none_iff => exact findMatching_eq_none_iff
  case entry =>
    intro n i hfind
    have hi := (findMatching_eq_some_iff.1 hfind).1
    exact ⟨hi, Node.matchTable_eq_some_iff.1 hi⟩

end Tree

/-- A root with two children that are compatible with one name each. -/
def Blob.sampleTable : Blob where
  address := 0x1000
  bytes := List.flatMap Bytes.ofWord32
    [0xd00dfeed, 123, 40, 112, 40, 17, 16, 0, 11, 72, 1, 0,
      1, 0x61000000, 3, 2, 0, 0x70000000, 2, 1, 0x62000000, 3, 2, 0, 0x71000000, 2, 2, 9] ++
    Bytes.ofString "compatible" ++ [0]
  headerSize_le := by decide +kernel
  length_lt := by decide +kernel

namespace Build

/-- In a built tree, a table is matched at the earliest of the nodes that its names are found at
from the same place on, with the first name that this node is compatible with. A node matches two
tables, one behind the other, as it does the first, or else as it does the second. -/
theorem matchesEarliest_of_build {b : Blob} {heap : Heap} {t : Tree} {after : Option Node}
    (h : (build b heap).result = .ok t) (hafter : ∀ m ∈ after, m ∈ t.nodes) :
    (∀ table, t.MatchesEarliest after table) ∧ ∀ n ∈ t.nodes,
      (∀ table i, n.matchTable table = some i ↔ n.MatchesAt table i) ∧
      ∀ first second, n.matchTable (first ++ second) =
        (n.matchTable first).or ((n.matchTable second).map (· + first.length)) := by
  refine ⟨fun table => Tree.matchesEarliest (linked_of_build h).1 hafter, fun n _ => ⟨?_, ?_⟩⟩
  · exact fun table i => Node.matchTable_eq_some_iff
  · exact n.matchTable_append

/-- The names stand in the table in the other order than in the tree. -/
theorem matchesEarliest_of_build_sample :
    ∃ t a b, (build .sampleTable (.fresh 0)).result = .ok t ∧ a ∈ t.nodes ∧
      t.IsEarliest a (t.singleMatches none ["q", "", "p", "q"]) ∧
      t.IsEarliest b (t.singleMatches (some a) ["q", "", "p", "q"]) ∧
      a.MatchesAt ["q", "", "p", "q"] 2 ∧ b.MatchesAt ["q", "", "p", "q"] 0 := by
  have hcheck : (build .sampleTable (.fresh 0)).result.toOption.map (fun t =>
      t.nodes.map fun n => n.matchTable ["q", "", "p", "q"]) = some [none, some 2, some 0] := by
    decide +kernel
  obtain ⟨t, ht, hmatches⟩ := exists_of_result hcheck
  obtain ⟨r, a, b, hnodes, hr, ha, hb⟩ : ∃ r a b, t.nodes = [r, a, b] ∧
      r.matchTable ["q", "", "p", "q"] = none ∧ a.matchTable ["q", "", "p", "q"] = some 2 ∧
      b.matchTable ["q", "", "p", "q"] = some 0 := by
    obtain ⟨r, rest, hnodes, hr, hrest⟩ := List.map_eq_cons_iff.1 hmatches
    obtain ⟨a, rest, rfl, ha, hrest⟩ := List.map_eq_cons_iff.1 hrest
    obtain ⟨b, rfl, hb⟩ := List.map_eq_singleton_iff.1 hrest
    exact ⟨r, a, b, hnodes, hr, ha, hb⟩
  have hamem : a ∈ t.nodes := by simp [hnodes]
  have hscan : t.scan (some a) = [b] :=
    Tree.scan_of_nodes (linked_of_build ht).1 (show t.nodes = [r] ++ a :: [b] from hnodes)
  have hfirst : t.findMatching none ["q", "", "p", "q"] = some (a, 2) :=
    Tree.findMatching_eq_some_iff.2 ⟨ha, [r], [b], hnodes, by simp [hr]⟩
  have hsecond : t.findMatching (some a) ["q", "", "p", "q"] = some (b, 0) :=
    Tree.findMatching_eq_some_iff.2 ⟨hb, [], [], hscan, by simp⟩
  obtain ⟨hall, -⟩ := @matchesEarliest_of_build _ _ t none ht nofun
  obtain ⟨hrest, -⟩ := @matchesEarliest_of_build _ _ t (some a) ht (by simp [hamem])
  refine ⟨t, a, b, ht, hamem, ?_, ?_, ((hall _).entry _ _ hfirst).2,
    ((hrest _).entry _ _ hsecond).2⟩
  · exact ((hall _).fst_eq_some_iff a).1 (by rw [hfirst]; rfl)
  · exact ((hrest _).fst_eq_some_iff b).1 (by rw [hsecond]; rfl)

end Build
end Devicetree
