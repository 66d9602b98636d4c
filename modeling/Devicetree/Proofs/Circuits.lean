import Devicetree.Proofs.Routing

/-!
# Circuits

Handles may lead a node's interrupts back to the node. If it is a controller, and none is met on
the way, then it is its own controller. Parents come before their children, so such a way round
follows a handle to a node that is not before the one that names it.
-/

namespace Devicetree
namespace Node

/-- The node is a controller to which its own interrupts come back, past no other controller. -/
def ComesBack (n : Node) : Prop :=
  n.isController = true ∧ ∃ k, (∀ j < k, n.Passes (j + 1)) ∧ n.reached? (k + 1) = some n

variable {n m c : Node} {k : Nat}

theorem comesBack_iff_meets : n.ComesBack ↔ n.Meets n := by
  constructor
  · rintro ⟨hcontroller, k, hall, hk⟩
    exact ⟨k, hall, hk, hcontroller⟩
  · rintro ⟨k, hall, hk, hcontroller⟩
    exact ⟨hcontroller, k, hall, hk⟩

/-- A step to an earlier node may follow any link, but only handles lead elsewhere. -/
theorem names_of_successor? (h : Linked n.tree.links) (hm : n.successor? = some m)
    (hle : n.index ≤ m.index) : n.Names m := by
  rcases names_or_parent_of_successor? hm with hnames | hparent
  · exact hnames
  · have hlt := h.parent_lt (parent_eq_some_iff.1 hparent).2
    omega

theorem index_lt_of_reached?
    (hback : ∀ j ≤ k, ∀ m m', n.reached? j = some m → n.reached? (j + 1) = some m' →
      m'.index < m.index)
    (hm : n.reached? (k + 1) = some m) : m.index < n.index := by
  induction k generalizing m with
  | zero => exact hback 0 (Nat.le_refl 0) n m rfl hm
  | succ k ih =>
    obtain ⟨x, hx, -⟩ := Option.bind_eq_some_iff.1 hm
    have hlast := hback (k + 1) (Nat.le_refl _) x m hx hm
    have hfirst := ih (fun j hj => hback j (Nat.le_succ_of_le hj)) hx
    omega

/-- A walk that comes back follows a handle to a node that is not before the one that names it. -/
theorem exists_names_of_reached? (h : Linked n.tree.links) (hk : n.reached? (k + 1) = some n) :
    ∃ j ≤ k, ∃ m m', n.reached? j = some m ∧ n.reached? (j + 1) = some m' ∧ m.Names m' ∧
      m.index ≤ m'.index := by
  by_contra hnone
  apply Nat.lt_irrefl n.index
  apply index_lt_of_reached? _ hk
  intro j hj m m' hm hm'
  by_contra hle
  have hstep : m.successor? = some m' := by
    rw [reached?, hm, Option.bind_some] at hm'
    exact hm'
  have hnames := names_of_successor? (tree_of_reached? h hm ▸ h) hstep (Nat.not_lt.1 hle)
  exact hnone ⟨j, hj, m, m', hm, hm', hnames, Nat.not_lt.1 hle⟩

theorem interruptParent_of_successor?_self (hrouted : n.IsRouted) (hself : n.successor? = some n) :
    n.interruptParent.value = if n.isController then some n else none := by
  have hreached : ∀ k, n.reached? k = some n := by
    intro k
    induction k with
    | zero => rfl
    | succ k ih => rw [reached?, ih, Option.bind_some, hself]
  cases hcontroller : n.isController with
  | true =>
    have hbefore : ∀ j < 0, n.Passes (j + 1) := fun j hj => absurd hj (Nat.not_lt_zero j)
    exact (hrouted.value_eq_some_iff n).2 ⟨0, hbefore, hreached 1, hcontroller⟩
  | false =>
    have hendless : n.IsEndless := fun k => ⟨n, hreached (k + 1), hcontroller⟩
    exact hrouted.value_eq_none_iff.2 (.inr hendless)

end Node

namespace Build

/-- A node of a built tree is its own controller just if it is a controller and its interrupts come
back to it before they meet another one. On the way they follow a handle to a node that is not
before the one that names it. -/
theorem interruptParent_ne_self_iff_of_build {b : Blob} {heap : Heap} {t : Tree} {n : Node}
    (h : (build b heap).result = .ok t) (hn : n ∈ t.nodes) :
    (n.interruptParent.value ≠ some n ↔ ¬n.ComesBack) ∧
      (n.ComesBack → ∃ j m m', n.reached? j = some m ∧ n.reached? (j + 1) = some m' ∧
        m.Names m' ∧ m.index ≤ m'.index) ∧
      (n.successor? = some n →
        n.interruptParent.value = if n.isController then some n else none) := by
  obtain rfl := (mem_nodes_of_build h).1 hn
  obtain ⟨hlinked, -, hcount⟩ := linked_of_build h
  have hrouted := Node.isRouted (n := n) hlinked hcount
  refine ⟨?_, ?_, Node.interruptParent_of_successor?_self hrouted⟩
  · rw [Ne, hrouted.value_eq_some_iff, Node.comesBack_iff_meets]
  · rintro ⟨-, k, -, hk⟩
    obtain ⟨j, -, hstep⟩ := Node.exists_names_of_reached? hlinked hk
    exact ⟨j, hstep⟩

end Build

/-- A root with a controller and another node, which name each other. -/
def Blob.sampleCircuit : Blob where
  address := 0x1000
  bytes := List.flatMap Bytes.ofWord32
    [0xd00dfeed, 204, 40, 160, 40, 17, 16, 0, 44, 120, 1, 0,
      1, 0x61000000, 3, 4, 0, 1, 3, 4, 8, 2, 3, 4, 25, 1, 2,
      1, 0x62000000, 3, 4, 0, 2, 3, 4, 8, 1, 2, 2, 9] ++
    Bytes.ofString "phandle" ++ [0] ++ Bytes.ofString "interrupt-parent" ++ [0] ++
    Bytes.ofString "#interrupt-cells" ++ [0, 0, 0]
  headerSize_le := by decide +kernel
  length_lt := by decide +kernel

namespace Build

theorem interruptParent_eq_of_index {b : Blob} {heap : Heap} {t : Tree} {n c : Node}
    (h : (build b heap).result = .ok t) (hn : n ∈ t.nodes) (hc : c ∈ t.nodes)
    (hindex : n.interruptParent.value.map Node.index = some c.index) :
    n.interruptParent.value = some c := by
  obtain ⟨hlinked, -, -⟩ := linked_of_build h
  obtain rfl := (mem_nodes_of_build h).1 hn
  obtain ⟨c', hvalue, hc'⟩ := Option.map_eq_some_iff.1 hindex
  have htree := Node.tree_of_interruptParent hlinked hvalue
  rw [hvalue, Node.eq_of_index_eq htree ((mem_nodes_of_build h).1 hc) hc']

theorem interruptParent_ne_self_iff_of_build_sample :
    ∃ t a b, (build .sampleCircuit (.fresh 0)).result = .ok t ∧ a ∈ t.nodes ∧ b ∈ t.nodes ∧
      a.ComesBack ∧ ¬b.ComesBack := by
  have hanswers : (build .sampleCircuit (.fresh 0)).result.toOption.map (fun t =>
      (t.nodes[1]?.map fun n => n.interruptParent.value.map Node.index,
        t.nodes[2]?.map fun n => n.interruptParent.value.map Node.index)) =
      some (some (some 1), some (some 1)) := by decide +kernel
  obtain ⟨t, ht, hboth⟩ := exists_of_result hanswers
  obtain ⟨hfirst, hsecond⟩ := Prod.mk.inj hboth
  obtain ⟨a, ha, hroutea⟩ := Option.map_eq_some_iff.1 hfirst
  obtain ⟨b, hb, hrouteb⟩ := Option.map_eq_some_iff.1 hsecond
  have hamem := List.mem_of_getElem? ha
  have hbmem := List.mem_of_getElem? hb
  obtain ⟨-, hindexa⟩ := (getElem?_nodes_of_build ht).1 ha
  obtain ⟨-, hindexb⟩ := (getElem?_nodes_of_build ht).1 hb
  have ha : a.interruptParent.value = some a :=
    interruptParent_eq_of_index ht hamem hamem (hindexa ▸ hroutea)
  have hb : b.interruptParent.value = some a :=
    interruptParent_eq_of_index ht hbmem hamem (hindexa ▸ hrouteb)
  refine ⟨t, a, b, ht, hamem, hbmem, ?_, ?_⟩
  · by_contra hnot
    exact (interruptParent_ne_self_iff_of_build ht hamem).1.2 hnot ha
  · apply (interruptParent_ne_self_iff_of_build ht hbmem).1.1
    rw [hb]
    rintro heq
    rw [Option.some.inj heq, hindexb] at hindexa
    contradiction

end Build

/-- A root that is a controller and names itself. -/
def Blob.sampleOwn : Blob where
  address := 0x1000
  bytes := List.flatMap Bytes.ofWord32
    [0xd00dfeed, 146, 40, 104, 40, 17, 16, 0, 42, 64,
      1, 0, 3, 4, 0, 1, 3, 4, 8, 1, 3, 4, 25, 1, 2, 9] ++
    Bytes.ofString "phandle" ++ [0] ++ Bytes.ofString "interrupt-parent" ++ [0] ++
    Bytes.ofString "#interrupt-cells" ++ [0]
  headerSize_le := by decide +kernel
  length_lt := by decide +kernel

namespace Build

/-- The root's interrupts go to the root itself. -/
theorem exists_interruptParent_eq_self :
    ∃ t, (build .sampleOwn (.fresh 0)).result = .ok t ∧ t.root ∈ t.nodes ∧
      t.root.interruptParent.value = some t.root := by
  have hanswer : (build .sampleOwn (.fresh 0)).result.toOption.map (fun t =>
      t.root.interruptParent.value.map Node.index) = some (some 0) := by decide +kernel
  obtain ⟨t, ht, hindex⟩ := exists_of_result hanswer
  have hroot : t.root ∈ t.nodes := (mem_nodes_of_build ht).2 rfl
  exact ⟨t, ht, hroot, interruptParent_eq_of_index ht hroot hroot hindex⟩

end Build
end Devicetree
