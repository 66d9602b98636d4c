import Devicetree.Proofs.Listings
import Devicetree.Proofs.Packing
import Devicetree.Proofs.Relatives

/-!
# Meaning

What a tree means can be read off the tokens without building anything. Each node stands for the
token that begins it: its parent is the innermost node open there, its path continues that of its
parent, and its properties are those listed behind the token, up to the next one that begins or
ends a node. A node that is not named there gets one more property for its name.
-/

namespace Devicetree

open Token

/-- The node is what the blob says of the one that its token at `k` begins. The value made for a
name is read from the block, where the name is if the block is small. -/
structure Node.Means (b : Blob) (k : Nat) (name : Bytes) (n : Node) : Prop where
  parent : ∀ i, IsInnermost b.tokens.tokens i k →
    ∃ p, n.tree.nodes[begins (b.tokens.tokens.take i)]? = some p ∧ n.parent = some p
  no_parent : (∀ i, ¬ IsOpen b.tokens.tokens i k) → n.parent = none
  path_of_slash : name.head? = some Path.slash → n.pathBytes = name
  path_of_no_parent : name.head? ≠ some Path.slash → n.parent = none → n.pathBytes = Path.root
  path_of_parent : ∀ p, name.head? ≠ some Path.slash → n.parent = some p →
    n.pathBytes = (if p.pathBytes = Path.root then [] else p.pathBytes) ++ Path.slash :: name
  properties : ∃ listed,
    Named (fun off => b.stringAt off.toUInt64) (header b.tokens.tokens k) listed ∧
      if nameKey ∈ listed.map Prod.fst then
        n.properties.map (fun p => (p.record.name, p.value)) = listed
      else ∃ value,
        n.properties.map (fun p => (p.record.name, p.value)) = listed ++ [(nameKey, value)] ∧
          (n.tree.size < 2 ^ 32 → value = Path.shortName n.pathBytes ++ [0])

namespace Build

theorem pathBytes_of_placed {nodes : List DraftNode} {t : Tree} {n : Node} {T : List Token}
    {k : Nat} {name : Bytes} (hdraft : t.records.map NodeRecord.draft = nodes) (hn : n.tree = t)
    (hplaced : Draft.Placed T nodes k name n.record.draft) :
    n.pathBytes = Path.join (n.parent.map Node.pathBytes) name := by
  subst hn
  obtain ⟨-, paths, hopens, hpath⟩ := hplaced
  have hparent : (n.record.parent.bind fun i => nodes[i]?).map DraftNode.path =
      n.parent.map Node.pathBytes := by
    rw [Node.parent]
    cases n.record.parent with
    | none => rfl
    | some i =>
      rw [Option.bind_some, Option.bind_some]
      cases hm : nodes[i]? with
      | none =>
        rw [← hdraft, List.getElem?_map, Option.map_eq_none_iff, List.getElem?_eq_none_iff] at hm
        rw [Tree.node?, dif_neg (Nat.not_lt.2 hm)]
        rfl
      | some m =>
        obtain ⟨p, htree, hindex, rfl⟩ := exists_node_of_draft hdraft hm
        rw [Tree.node?_eq_some_iff.2 ⟨htree, hindex⟩]
        rfl
  rw [← hparent]
  exact hpath.trans (congrArg (Path.join · name) hopens.head?.symm)

theorem properties_of_lists {n : Node} {listed : List (Bytes × Bytes)}
    (h : n.record.Lists listed) (hread : n.tree.size < 2 ^ 32 → n.tree.ReadsBack) :
    if nameKey ∈ listed.map Prod.fst then
      n.properties.map (fun p => (p.record.name, p.value)) = listed
    else ∃ value,
      n.properties.map (fun p => (p.record.name, p.value)) = listed ++ [(nameKey, value)] ∧
        (n.tree.size < 2 ^ 32 → value = Path.shortName n.pathBytes ++ [0]) := by
  split
  · exact Node.map_properties_of_mem h ‹_›
  · obtain ⟨front, p, hproperties, hfront, hcontent⟩ := Node.exists_properties_eq_concat h ‹_›
    obtain ⟨hname, hvalue, -⟩ : p.record.name = nameKey ∧
        p.record.value = Path.shortName n.pathBytes ++ [0] ∧ p.record.isInline = true := by
      simpa [PropertyRecord.content] using hcontent
    refine ⟨p.value, ?_, fun hsize => ?_⟩
    · rw [hproperties, List.map_append, hfront, List.map_singleton, hname]
    · rw [(hread hsize).value_eq (hproperties ▸ List.mem_concat_self), hvalue]

/-- What a draft says of a node is what the tokens say of it. -/
theorem means_of_placed {b : Blob} {t : Tree} {n : Node} {d : Draft} {k : Nat} {name : Bytes}
    (hlinked : Linked t.links) (hdraft : t.records.map NodeRecord.draft = d.nodes)
    (hfollows : d.Follows (fun off => b.stringAt off.toUInt64) b.tokens.tokens
      b.tokens.tokens.length .body)
    (hk : k ≤ b.tokens.tokens.length) (hn : n.tree = t)
    (hplaced : Draft.Placed b.tokens.tokens d.nodes k name n.record.draft)
    (hlists : ∃ listed, Named (fun off => b.stringAt off.toUInt64) (header b.tokens.tokens k)
      listed ∧ n.record.Lists listed)
    (hread : t.size < 2 ^ 32 → t.ReadsBack) : n.Means b k name := by
  subst hn
  have hpath := pathBytes_of_placed hdraft rfl hplaced
  have hparent : n.record.parent =
      (openAt b.tokens.tokens k).head?.map fun i => begins (b.tokens.tokens.take i) :=
    hplaced.parent
  constructor
  case parent =>
    intro i hi
    obtain ⟨name', hname'⟩ := hi.1.isBegin
    obtain ⟨m, hm, -⟩ := hfollows.node i name' (Nat.lt_of_lt_of_le hi.1.lt hk) hname'
    obtain ⟨p, htree, hindex, -⟩ := exists_node_of_draft hdraft hm
    refine ⟨p, ?_, Node.parent_eq_some_iff.2 ⟨htree, ?_⟩⟩
    · rw [Tree.nodes_eq_places hlinked, Tree.getElem?_places_eq_some_iff]
      exact ⟨htree, hindex⟩
    · rw [Node.parentAt_index, hindex, hparent, (isInnermost_iff hk).1 hi, Option.map_some]
  case no_parent =>
    intro hnone
    have hstack : openAt b.tokens.tokens k = [] := by
      apply List.eq_nil_iff_forall_not_mem.2
      intro i hi
      exact hnone i ((mem_openAt_iff hk).1 hi)
    rw [Node.parent, hparent, hstack]
    rfl
  case path_of_slash =>
    intro hslash
    rw [hpath]
    unfold Path.join
    rw [if_pos hslash]
  case path_of_no_parent =>
    intro hslash hnone
    rw [hpath, hnone]
    unfold Path.join
    rw [if_neg hslash]
    rfl
  case path_of_parent =>
    intro p hslash hsome
    rw [hpath, hsome]
    unfold Path.join
    rw [if_neg hslash]
    rfl
  case properties =>
    obtain ⟨listed, hnamed, hlisted⟩ := hlists
    exact ⟨listed, hnamed, properties_of_lists hlisted hread⟩

variable {b : Blob} {heap : Heap} {t : Tree} {n : Node} {k : Nat} {name : Bytes}

theorem exists_lists_of_begin (h : (build b heap).result = .ok t) (hn : n.tree = t)
    (hname : b.tokens.tokens[k]? = some (.beginNode name))
    (hindex : n.index = begins (b.tokens.tokens.take k)) :
    (∃ parent, n.pathBytes = Path.join parent name) ∧
      ∃ listed, Named (fun off => b.stringAt off.toUInt64) (header b.tokens.tokens k) listed ∧
        n.record.Lists listed := by
  subst hn
  obtain ⟨p, hp, -, -, -, hrecords⟩ := populate_of_build h
  obtain ⟨r, listed, hr, hpath, hnamed, hlists⟩ := exists_lists_of_populate hp hname
  have hrecord : n.tree.records[n.index]? = some n.record := List.getElem?_eq_getElem n.index_lt
  rw [← hindex, ← hrecords, hrecord] at hr
  obtain rfl := Option.some.inj hr
  exact ⟨⟨_, hpath⟩, listed, hnamed, hlists⟩

theorem means_of_begin (h : (build b heap).result = .ok t) (hn : n.tree = t)
    (hname : b.tokens.tokens[k]? = some (.beginNode name))
    (hindex : n.index = begins (b.tokens.tokens.take k)) : n.Means b k name := by
  obtain ⟨hlinked, -, -⟩ := linked_of_build h
  obtain ⟨hdraft, -, -⟩ := draft_of_build h
  have hfollows := follows_of_build h
  have hk := (List.getElem?_eq_some_iff.1 hname).1
  obtain ⟨m, hm, hplaced, -⟩ := hfollows.node k name hk hname
  rw [← hindex, getElem?_draft_index hdraft hn] at hm
  obtain rfl := Option.some.inj hm
  exact means_of_placed hlinked hdraft hfollows (Nat.le_of_lt hk) hn hplaced
    (exists_lists_of_begin h hn hname hindex).2 (readsBack_of_build h)

theorem exists_means_of_node (h : (build b heap).result = .ok t) (hn : n.tree = t) :
    ∃ k name, b.tokens.tokens[k]? = some (.beginNode name) ∧
      n.index = begins (b.tokens.tokens.take k) ∧ n.Means b k name := by
  have hindex : n.index < begins b.tokens.tokens := by
    rw [← length_records_of_build h, ← hn]
    exact n.index_lt
  obtain ⟨k, name, hname, hk⟩ := exists_begin hindex
  exact ⟨k, name, hname, hk.symm, means_of_begin h hn hname hk.symm⟩

theorem exists_means_of_begin (h : (build b heap).result = .ok t)
    (hname : b.tokens.tokens[k]? = some (.beginNode name)) :
    ∃ n : Node, n.tree = t ∧ n.index = begins (b.tokens.tokens.take k) ∧ n.Means b k name := by
  have hlt : begins (b.tokens.tokens.take k) < t.records.length := by
    have hsucc : begins (b.tokens.tokens.take (k + 1)) = _ + 1 := begins_take_succ hname
    have hle : begins (b.tokens.tokens.take (k + 1)) ≤ begins b.tokens.tokens :=
      (List.take_sublist _ _).countP_le
    rw [length_records_of_build h]
    omega
  exact ⟨⟨t, _, hlt⟩, rfl, rfl, means_of_begin h rfl hname rfl⟩

/-- A tree that is built has one node for each token that begins one, in order, and each node is
what the tokens say of it. -/
theorem means_of_build {b : Blob} {heap : Heap} {t : Tree} (h : (build b heap).result = .ok t) :
    b.tokens.outcome = .ok () ∧ t.nodes.length = begins b.tokens.tokens ∧
      t.nodeCount = begins b.tokens.tokens ∧
      ∀ k name, b.tokens.tokens[k]? = some (.beginNode name) →
        ∃ n, t.nodes[begins (b.tokens.tokens.take k)]? = some n ∧ n.Means b k name := by
  obtain ⟨hlinked, -, hcount⟩ := linked_of_build h
  obtain ⟨-, hending, -⟩ := draft_of_build h
  obtain ⟨houtcome, -⟩ := (Draft.follows_start (fun off => b.stringAt off.toUInt64)
    b.tokens.tokens).run (Nat.zero_le _) hending
  have hlength := length_records_of_build h
  refine ⟨houtcome, ?_, hcount.trans hlength, ?_⟩
  · rw [Tree.nodes_eq_places hlinked, Tree.length_places, hlength]
  · intro k name hname
    obtain ⟨n, hn, hindex, hmeans⟩ := exists_means_of_begin h hname
    refine ⟨n, ?_, hmeans⟩
    rw [Tree.nodes_eq_places hlinked, Tree.getElem?_places_eq_some_iff]
    exact ⟨hn, hindex⟩

theorem means_of_build_sample :
    ∃ t n, (build .sample (.fresh 0)).result = .ok t ∧ t.nodes[1]? = some n ∧
      n.Means .sample 3 (Bytes.ofString "a@1") := by
  obtain ⟨t, ht, -⟩ := exists_build_sample
  obtain ⟨-, -, -, hnodes⟩ := means_of_build ht
  obtain ⟨n, hn, hmeans⟩ := hnodes 3 (Bytes.ofString "a@1") (by decide +kernel)
  have hindex : begins (Blob.sample.tokens.tokens.take 3) = 1 := by decide +kernel
  exact ⟨t, n, ht, hindex ▸ hn, hmeans⟩

end Build
end Devicetree
