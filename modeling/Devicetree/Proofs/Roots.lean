import Devicetree.Proofs.Meaning

/-!
# Roots

The root has no parent, but it need not be the only node without one: nodes may begin after the
first top-level node has ended, and a walk from the root does not meet them. There is one root
exactly if every node but the first begins while another is open.
-/

namespace Devicetree
namespace Token

variable {T : List Token} {i k : Nat}

/-- Every node but the first begins inside another one. -/
def HasOneTop (T : List Token) : Prop :=
  ∀ k name, T[k]? = some (.beginNode name) → begins (T.take k) ≠ 0 → ∃ i, IsOpen T i k

theorem exists_isInnermost (hk : k ≤ T.length) (h : IsOpen T i k) : ∃ j, IsInnermost T j k := by
  cases hstack : openAt T k with
  | nil => exact absurd ((mem_openAt_iff hk).2 h) (by simp [hstack])
  | cons j rest => exact ⟨j, (isInnermost_iff hk).2 (by rw [hstack, List.head?_cons])⟩

theorem any_isBegin_iff :
    (T[k]?.any isBegin) = true ↔ ∃ name, T[k]? = some (.beginNode name) := by
  cases T[k]? with
  | none => simp
  | some t => cases t <;> simp [isBegin]

/-- Where a node begins, the stack must not be empty. -/
theorem hasOneTop_iff : HasOneTop T ↔ ∀ k < T.length,
    (T[k]?.any isBegin) = true → begins (T.take k) ≠ 0 → openAt T k ≠ [] := by
  constructor
  · intro h k hk hbegin hne hnil
    obtain ⟨name, hname⟩ := any_isBegin_iff.1 hbegin
    obtain ⟨i, hi⟩ := h k name hname hne
    have hmem := (mem_openAt_iff (Nat.le_of_lt hk)).2 hi
    simp [hnil] at hmem
  · intro h k name hname hne
    have hk := (List.getElem?_eq_some_iff.1 hname).1
    obtain ⟨i, hi⟩ := List.exists_mem_of_ne_nil _ (h k hk (any_isBegin_iff.2 ⟨name, hname⟩) hne)
    exact ⟨i, (mem_openAt_iff (Nat.le_of_lt hk)).1 hi⟩

instance (T : List Token) : Decidable (HasOneTop T) := decidable_of_iff _ hasOneTop_iff.symm

end Token

namespace Tree

/-- The root is the only node without a parent, and a walk from it meets every node. -/
structure HasOneRoot (t : Tree) : Prop where
  root : t.root.parent = none
  parent : ∀ n ∈ t.nodes, n ≠ t.root → ∃ p, n.parent = some p
  walks : Walks Node.children [t.root] t.nodes
  length_nodes : t.nodes.length = t.nodeCount

variable {t : Tree}

theorem parent_root (h : Linked t.links) : t.root.parent = none := by
  rw [← Option.isNone_iff_eq_none, Node.isNone_parent h rfl, decide_eq_true_iff]
  by_contra hsome
  obtain ⟨i, hi⟩ := Option.ne_none_iff_exists'.1 hsome
  exact Nat.not_lt_zero i (h.parent_lt hi)

theorem hasOneRoot (hlinked : Linked t.links) (hwell : t.WellLinked)
    (hparent : ∀ n ∈ t.nodes, n ≠ t.root → ∃ p, n.parent = some p) : t.HasOneRoot := by
  have hroot := parent_root hlinked
  obtain ⟨rest, hnodes⟩ := List.head?_eq_some_iff.1 hwell.head?_nodes
  have hrest : rest.filter (fun n => n.parent.isNone) = [] := by
    rw [List.filter_eq_nil_iff]
    intro n hn hnone
    have hne : n ≠ t.root := by
      rintro rfl
      exact (List.nodup_cons.1 (hnodes ▸ hwell.nodup_nodes)).1 hn
    obtain ⟨p, hp⟩ := hparent n (hnodes ▸ List.mem_cons_of_mem _ hn) hne
    simp [hp] at hnone
  have htops : t.nodes.filter (fun n => n.parent.isNone) = [t.root] := by
    rw [hnodes, List.filter_cons_of_pos (by simp [hroot]), hrest]
  exact ⟨hroot, hparent, htops ▸ hwell.walks, hwell.length_nodes⟩

end Tree

namespace Build

open Token

theorem ne_root_of_index {t : Tree} {n : Node} (hn : n.tree = t) (hne : n ≠ t.root) :
    n.index ≠ 0 := by
  obtain ⟨_, i, hi⟩ := n
  cases hn
  rintro rfl
  exact hne rfl

theorem exists_parent_of_hasOneTop {b : Blob} {heap : Heap} {t : Tree} {n : Node}
    (h : (build b heap).result = .ok t) (htop : HasOneTop b.tokens.tokens) (hn : n.tree = t)
    (hne : n ≠ t.root) :
    ∃ k name i p, b.tokens.tokens[k]? = some (.beginNode name) ∧
      n.index = begins (b.tokens.tokens.take k) ∧ n.Means b k name ∧
      IsInnermost b.tokens.tokens i k ∧
      t.nodes[begins (b.tokens.tokens.take i)]? = some p ∧ n.parent = some p := by
  obtain ⟨k, name, hname, hindex, hmeans⟩ := exists_means_of_node h hn
  have hk := Nat.le_of_lt (List.getElem?_eq_some_iff.1 hname).1
  obtain ⟨j, hj⟩ := htop k name hname (hindex ▸ ne_root_of_index hn hne)
  obtain ⟨i, hi⟩ := exists_isInnermost hk hj
  obtain ⟨p, hp, hparent⟩ := hmeans.parent i hi
  exact ⟨k, name, i, p, hname, hindex, hmeans, hi, hn ▸ hp, hparent⟩

/-- The root of a built tree has no parent, and it is the only such node exactly if every other
node begins inside another one. -/
theorem hasOneRoot_iff_of_build {b : Blob} {heap : Heap} {t : Tree}
    (h : (build b heap).result = .ok t) :
    t.root.parent = none ∧ (t.HasOneRoot ↔ HasOneTop b.tokens.tokens) := by
  obtain ⟨hlinked, hpre, hcount⟩ := linked_of_build h
  have hwell := Tree.wellLinked hlinked hpre hcount
  refine ⟨Tree.parent_root hlinked, ?_, ?_⟩
  · intro hone k name hname hne
    obtain ⟨n, htree, hindex, hmeans⟩ := exists_means_of_begin h hname
    have hroot : n ≠ t.root := by
      rintro rfl
      exact hne hindex.symm
    obtain ⟨p, hp⟩ := hone.parent n ((mem_nodes_of_build h).2 htree) hroot
    by_contra hnone
    rw [hmeans.no_parent (not_exists.1 hnone)] at hp
    contradiction
  · intro htop
    apply Tree.hasOneRoot hlinked hwell
    intro n hn hne
    obtain ⟨-, -, -, p, -, -, -, -, -, hp⟩ :=
      exists_parent_of_hasOneTop h htop ((mem_nodes_of_build h).1 hn) hne
    exact ⟨p, hp⟩

end Build

/-- A root with two children, the first of which has a child with the name of the second. -/
def Blob.sampleNested : Blob where
  address := 0x1000
  bytes := List.flatMap Bytes.ofWord32
    [0xd00dfeed, 100, 40, 100, 0, 17, 16, 0, 0, 60,
      1, 0, 1, 0x736f6300, 1, 0x75617274, 0x40310000, 2, 2, 1, 0x75617274, 0x40310000, 2, 2, 9]
  headerSize_le := by decide +kernel
  length_lt := by decide +kernel

namespace Build

theorem hasOneRoot_iff_of_build_sample :
    ∃ t, (build .sampleNested (.fresh 0)).result = .ok t ∧ t.nodeCount = 4 ∧ t.HasOneRoot := by
  have hcheck : ((build .sampleNested (.fresh 0)).result.toOption.map Tree.nodeCount) = some 4 := by
    decide +kernel
  obtain ⟨t, ht, hcount⟩ := exists_of_result hcheck
  have htop : Token.HasOneTop (Blob.tokens .sampleNested).tokens := by decide +kernel
  exact ⟨t, ht, hcount, (hasOneRoot_iff_of_build ht).2.2 htop⟩

end Build

/-- A root and, after its end, another node. -/
def Blob.sampleTops : Blob where
  address := 0x1000
  bytes := List.flatMap Bytes.ofWord32
    [0xd00dfeed, 68, 40, 68, 0, 17, 16, 0, 0, 28, 1, 0, 2, 1, 0x78000000, 2, 9]
  headerSize_le := by decide +kernel
  length_lt := by decide +kernel

namespace Build

/-- The second top-level node has no parent, and it is not the root. -/
theorem exists_not_hasOneRoot :
    ∃ t, (build .sampleTops (.fresh 0)).result = .ok t ∧
      (∃ n ∈ t.nodes, n.index = 1 ∧ n.parent = none) ∧ ¬ t.HasOneRoot := by
  have hcheck : ((build .sampleTops (.fresh 0)).result.toOption.map fun t =>
      t.nodes.any fun n => n.index = 1 ∧ n.parent.isNone) = some true := by
    decide +kernel
  obtain ⟨t, ht, hany⟩ := exists_of_result hcheck
  obtain ⟨n, hn, htop⟩ := List.any_eq_true.1 hany
  obtain ⟨hindex, hnone⟩ := of_decide_eq_true htop
  have hnone := Option.isNone_iff_eq_none.1 hnone
  refine ⟨t, ht, ⟨n, hn, hindex, hnone⟩, fun hone => ?_⟩
  have hroot : n ≠ t.root := by
    rintro rfl
    contradiction
  obtain ⟨p, hp⟩ := hone.parent n hn hroot
  rw [hnone] at hp
  contradiction

end Build
end Devicetree
