import Devicetree.Proofs.Extents
import Devicetree.Proofs.Mirrors
import Devicetree.Proofs.Paths

/-!
# Names of nodes

A node for which the blob lists no name is named after its path: by what stands behind the last
slash of the path and before the first unit mark there. That name and a NUL are the value of one
more property, the last one of the node. So every node has a property for its name, and nothing
ever stands for a name that is missing.
-/

namespace Devicetree
namespace Bytes

/-- The part of a string behind the last mark in it. -/
structure IsBehindLast (mark : UInt8) (b s : Bytes) : Prop where
  notMem : mark ∉ s
  split : ∃ front, b = front ++ mark :: s

/-- The part of a string before the first mark in it, or all of a string without a mark. -/
structure IsBeforeFirst (mark : UInt8) (b s : Bytes) : Prop where
  notMem : mark ∉ s
  split : b = s ∨ ∃ rest, b = s ++ mark :: rest

theorem isBeforeFirst_takeWhile (mark : UInt8) (b : Bytes) :
    IsBeforeFirst mark b (b.takeWhile (· ≠ mark)) := by
  by_cases hmem : mark ∈ b
  · obtain ⟨s, rest, rfl, hs⟩ := List.eq_append_cons_of_mem hmem
    rw [takeWhile_ne_append hs]
    exact ⟨hs, .inr ⟨rest, rfl⟩⟩
  · rw [takeWhile_ne_of_notMem hmem]
    exact ⟨hmem, .inl rfl⟩

end Bytes

namespace Path

variable {path : Bytes}

theorem isBehindLast_unitName (h : slash ∈ path) :
    Bytes.IsBehindLast slash path (unitName path) := by
  obtain ⟨unit, front, hreverse, hunit⟩ := List.eq_append_cons_of_mem (List.mem_reverse.2 h)
  have hsplit : path = front.reverse ++ slash :: unit.reverse := by
    rw [← List.reverse_reverse path, hreverse]
    simp
  have hslash : slash ∉ unit.reverse := fun hmem => hunit (List.mem_reverse.1 hmem)
  rw [hsplit, unitName_append hslash]
  exact ⟨hslash, front.reverse, rfl⟩

theorem isBeforeFirst_shortName (path : Bytes) :
    Bytes.IsBeforeFirst unitMark (unitName path) (shortName path) :=
  Bytes.isBeforeFirst_takeWhile unitMark (unitName path)

theorem slash_mem_join (parent : Option Bytes) (name : Bytes) : slash ∈ join parent name := by
  unfold join
  split
  · exact List.mem_of_mem_head? ‹_›
  · split <;> simp [root]

end Path

namespace Node

/-- The node has the properties listed and behind them one more, which alone is for its name. The
name is what stands behind the last slash of the node's path, cut before the first unit mark; the
value of the property is the name and a NUL, and is stored inside the block. -/
structure IsNamedByPath (n : Node) (listed : List (Bytes × Bytes)) (p : Property) : Prop where
  dropLast : n.properties.dropLast.map (fun q => (q.record.name, q.value)) = listed
  getLast? : n.properties.getLast? = some p
  filter : n.properties.filter (fun q => q.record.name = nameKey) = [p]
  property? : n.property? "name" = some p
  value : p.value = n.nameBytes ++ [0]
  name : ∃ unit, Bytes.IsBehindLast Path.slash n.pathBytes unit ∧ n.unitName = unit.text ∧
    Bytes.IsBeforeFirst Path.unitMark unit n.nameBytes
  isInline : p.record.isInline = true
  inBounds : p.InBounds

variable {n : Node} {listed : List (Bytes × Bytes)}

theorem exists_isNamedByPath (hlists : n.record.Lists listed)
    (hname : nameKey ∉ listed.map Prod.fst) (hkept : n.record.IsKept)
    (hslash : Path.slash ∈ n.pathBytes) (hbounds : n.InBounds) : ∃ p, n.IsNamedByPath listed p := by
  obtain ⟨front, p, hproperties, hfront, hp⟩ := exists_properties_eq_concat hlists hname
  obtain ⟨hkey, hwritten, hinline⟩ : p.record.name = nameKey ∧
      p.record.value = Path.shortName n.pathBytes ++ [0] ∧ p.record.isInline = true := by
    simpa [PropertyRecord.content] using hp
  have hinside : p.InBounds := hbounds.properties p (hproperties ▸ List.mem_concat_self)
  have hvalue := hinside.value.trans hwritten
  have hlast : n.lastProperty? "name" = some p := by
    rw [lastProperty?, hproperties, List.reverse_concat]
    exact List.find?_cons_of_pos (decide_eq_true hkey)
  have hnameBytes : n.nameBytes = Path.shortName n.pathBytes := by
    rw [nameBytes, name_of_lastProperty? hkept hlast]
    exact (congrArg Bytes.trimNul hvalue).trans (trimNul_concat _)
  have hother : front.filter (fun q => q.record.name = nameKey) = [] := by
    rw [List.filter_eq_nil_iff]
    intro q hq hkey'
    apply hname
    rw [← hfront, List.map_map]
    exact List.mem_map.2 ⟨q, hq, of_decide_eq_true hkey'⟩
  have hsingle : n.properties.filter (fun q => q.record.name = nameKey) = [p] := by
    rw [hproperties, List.filter_append, hother, List.nil_append]
    exact List.filter_cons_of_pos (decide_eq_true hkey)
  refine ⟨p, ?_⟩
  constructor
  case dropLast => rw [hproperties, List.dropLast_concat, hfront]
  case getLast? => rw [hproperties, List.getLast?_concat]
  case filter => exact hsingle
  case property? =>
    rw [property?, ← List.head?_filter]
    exact congrArg List.head? hsingle
  case value => rw [hvalue, hnameBytes]
  case name =>
    refine ⟨Path.unitName n.pathBytes, Path.isBehindLast_unitName hslash, rfl, ?_⟩
    rw [hnameBytes]
    exact Path.isBeforeFirst_shortName _
  case isInline => exact hinline
  case inBounds => exact hinside

end Node

namespace Build

open Token

variable {b : Blob} {heap : Heap} {t : Tree} {n : Node}

theorem begin_eq_of_getElem?_nodes {k j : Nat} {name name' : Bytes}
    (h : (build b heap).result = .ok t) (hk : b.tokens.tokens[k]? = some (.beginNode name))
    (hj : b.tokens.tokens[j]? = some (.beginNode name'))
    (hnk : t.nodes[begins (b.tokens.tokens.take k)]? = some n)
    (hnj : t.nodes[begins (b.tokens.tokens.take j)]? = some n) : k = j ∧ name = name' := by
  have hindexk := ((getElem?_nodes_of_build h).1 hnk).2
  have hindexj := ((getElem?_nodes_of_build h).1 hnj).2
  obtain rfl := Draft.begins_take_inj hk hj (hindexk.symm.trans hindexj)
  exact ⟨rfl, by simpa using hk.symm.trans hj⟩

/-- In a tree of less than 4 GiB a node for which the blob lists no name is named by its path, and
any other has the properties listed and no more. The name of a node is always that of its last
property for it. -/
theorem named_of_build (h : (build b heap).result = .ok t) (hsize : t.size < 2 ^ 32) :
    ∀ n ∈ t.nodes, ∃ k name listed, b.tokens.tokens[k]? = some (.beginNode name) ∧
      t.nodes[begins (b.tokens.tokens.take k)]? = some n ∧
      Named (fun off => b.stringAt off.toUInt64) (header b.tokens.tokens k) listed ∧
      (nameKey ∉ listed.map Prod.fst → ∃ p, n.IsNamedByPath listed p) ∧
      (nameKey ∈ listed.map Prod.fst →
        n.properties.map (fun q => (q.record.name, q.value)) = listed) ∧
      ∃ p, n.lastProperty? "name" = some p ∧ n.nameValue = p.value := by
  intro n hmem
  have hn := (mem_nodes_of_build h).1 hmem
  have hkept : n.record.IsKept := isKept_of_build h _ (hn ▸ List.getElem_mem n.index_lt)
  have hbounds : n.InBounds := inBounds_of_build h hsize (.nodes hmem)
  obtain ⟨k, name, hname, hindex, -⟩ := exists_means_of_node h hn
  obtain ⟨⟨parent, hpath⟩, listed, hnamed, hlists⟩ := exists_lists_of_begin h hn hname hindex
  have hslash : Path.slash ∈ n.pathBytes := hpath ▸ Path.slash_mem_join parent name
  obtain ⟨p, hp⟩ := Node.exists_lastProperty? (exists_name_of_build h hn)
  refine ⟨k, name, listed, hname, (getElem?_nodes_of_build h).2 ⟨hn, hindex⟩, hnamed, ?_, ?_, p, hp,
    Node.name_of_lastProperty? hkept hp⟩
  · exact fun hnot => Node.exists_isNamedByPath hlists hnot hkept hslash hbounds
  · exact Node.map_properties_of_mem hlists

theorem named_of_build_sample :
    ∃ t n p, (build .sample (.fresh 0)).result = .ok t ∧ t.size < 2 ^ 32 ∧ t.nodes[1]? = some n ∧
      n.IsNamedByPath [] p ∧ p.value = Bytes.ofString "a" ++ [0] := by
  have hcheck : ((build .sample (.fresh 0)).result.toOption.map fun t =>
      (t.size, t.nodes[1]?.map Node.nameBytes)) = some (540, some (Bytes.ofString "a")) := by
    decide +kernel
  obtain ⟨t, ht, hchecked⟩ := exists_of_result hcheck
  obtain ⟨hsize, hnames⟩ := Prod.mk.inj hchecked
  obtain ⟨n, hn, hbytes⟩ := Option.map_eq_some_iff.1 hnames
  have hlt : t.size < 2 ^ 32 := by omega
  obtain ⟨k, name, listed, hname, hindex, hnamed, hnot, -⟩ :=
    named_of_build ht hlt n (List.mem_of_getElem? hn)
  -- The node begins at the fourth token, behind which no property is listed.
  have hbegin : (Blob.tokens .sample).tokens[3]? = some (.beginNode (Bytes.ofString "a@1")) := by
    decide +kernel
  have hbegins : begins ((Blob.tokens .sample).tokens.take 3) = 1 := by decide +kernel
  have hheader : header (Blob.tokens .sample).tokens 3 = [] := by decide +kernel
  obtain ⟨rfl, -⟩ := begin_eq_of_getElem?_nodes ht hname hbegin hindex (hbegins ▸ hn)
  rw [hheader] at hnamed
  cases hnamed
  obtain ⟨p, hp⟩ := hnot (by simp)
  exact ⟨t, n, p, ht, hlt, hn, hp, by rw [hp.value, hbytes]⟩

end Build
end Devicetree
