import Devicetree.Machine
import Devicetree.Proofs.Packing
import Devicetree.Proofs.Records
import Devicetree.Proofs.Relocation
import Mathlib.Data.List.Forall2

/-!
# Alike trees

Two builds of one blob may get different blocks, but they write the same records. A search reads
records and values and never asks where they are, so in the second tree it finds the node at the
position that it found in the first.
-/

namespace Devicetree

/-- The trees have the same records and read the same values by them. -/
structure Tree.Twin (s t : Tree) : Prop where
  records : s.records = t.records
  value : ∀ r ∈ s.records, ∀ q ∈ r.properties, s.read q = t.read q
  nameValue : ∀ r ∈ s.records, r.name.map s.read = r.name.map t.read

/-- The trees differ in nothing but their blocks. -/
structure Tree.Alike (s t : Tree) : Prop extends Tree.Twin s t where
  blob : s.blob = t.blob
  size : s.size = t.size
  nodeCount : s.nodeCount = t.nodeCount

structure Node.Twin (m n : Node) : Prop where
  tree : m.tree.Twin n.tree
  index : m.index = n.index

structure Node.Alike (m n : Node) : Prop where
  tree : m.tree.Alike n.tree
  index : m.index = n.index

variable {s t : Tree} {m n : Node}

namespace Node

theorem Alike.twin (h : m.Alike n) : m.Twin n := ⟨h.tree.toTwin, h.index⟩

namespace Twin

theorem record (h : m.Twin n) : m.record = n.record := by
  simp only [Node.record, List.get_eq_getElem, h.tree.records, h.index]

theorem nameBytes (h : m.Twin n) : m.nameBytes = n.nameBytes := by
  have hvalue := h.tree.nameValue m.record (List.get_mem _ _)
  rw [Node.nameBytes, Node.nameBytes, Node.nameValue, Node.nameValue, hvalue, h.record]

theorem typeBytes (h : m.Twin n) : m.typeBytes = n.typeBytes := by
  rw [Node.typeBytes, Node.typeBytes, h.record]

theorem property? (h : m.Twin n) (name : String) :
    (m.property? name).map Property.value = (n.property? name).map Property.value := by
  have hfind : ∀ k : Node, (k.property? name).map Property.value =
      (k.record.properties.find? fun r => r.name = Bytes.ofString name).map k.tree.read := by
    intro k
    simp only [Node.property?, properties, List.find?_map, Option.map_map]
    rfl
  rw [hfind, hfind, ← h.record]
  exact Option.map_congr fun q hq =>
    h.tree.value m.record (List.get_mem _ _) q (List.mem_of_find?_eq_some hq)

theorem isCompatible (h : m.Twin n) (name : String) :
    m.isCompatible name = n.isCompatible name := by
  have hvalue : ∀ k : Node, k.isCompatible name =
      ((k.property? "compatible").map Property.value).any fun v =>
        (Value.entries v).any fun e => e ≠ [] && e = Bytes.ofString name := by
    intro k
    unfold Node.isCompatible
    cases k.property? "compatible" <;> rfl
  rw [hvalue, hvalue, h.property?]

theorem matchTable (h : m.Twin n) (table : List String) :
    m.matchTable table = n.matchTable table := by
  have heq : m.isCompatible = n.isCompatible := funext h.isCompatible
  rw [Node.matchTable, Node.matchTable, heq]

end Twin

theorem forall₂_follow {R : Node → Node → Prop}
    (hR : ∀ m n, R m n → m.index = n.index ∧ m.record = n.record) {l l' : List Node}
    (hl : List.Forall₂ R l l') (link : NodeRecord → Option Nat) (next : Option Nat) :
    List.Forall₂ R (follow link next l) (follow link next l') := by
  induction hl generalizing next with
  | nil => exact .nil
  | @cons m n _ _ h _ ih =>
    obtain ⟨hindex, hrecord⟩ := hR m n h
    unfold follow
    rw [hindex, hrecord]
    split
    · exact .cons h (ih _)
    · exact ih _

end Node

namespace Tree
namespace Alike

theorem places (h : s.Alike t) : List.Forall₂ Node.Alike s.places t.places := by
  rw [List.forall₂_iff_get]
  refine ⟨by simp [h.records], fun i hi hi' => ?_⟩
  simp only [Tree.places, List.get_eq_getElem, List.getElem_map, List.getElem_finRange]
  exact ⟨h, rfl⟩

theorem nodes (h : s.Alike t) : List.Forall₂ Node.Alike s.nodes t.nodes :=
  Node.forall₂_follow (fun _ _ hmn => ⟨hmn.index, hmn.twin.record⟩) h.places _ _

end Alike
end Tree

theorem Node.Alike.following (h : m.Alike n) : List.Forall₂ Node.Alike m.following n.following := by
  rw [Node.following, Node.following, h.twin.record]
  exact forall₂_follow (fun _ _ hmn => ⟨hmn.index, hmn.twin.record⟩) h.tree.places _ _

/-- A search in `s` that starts behind the first node is to a search in `t` that starts behind the
second one as `s` is to `t`: both start at the root, or behind nodes at one position, or behind
nodes of other trees. -/
inductive Counterpart (s t : Tree) : Option Node → Option Node → Prop
  | root : Counterpart s t none none
  | own {m n : Node} (hm : m.tree = s) (hn : n.tree = t) (hindex : m.index = n.index) :
    Counterpart s t (some m) (some n)
  | foreign {m n : Node} (hm : m.tree.isSame s = false) (hn : n.tree.isSame t = false) :
    Counterpart s t (some m) (some n)

theorem Tree.Alike.scan (h : s.Alike t) {after after' : Option Node}
    (hafter : Counterpart s t after after') :
    List.Forall₂ Node.Alike (s.scan after) (t.scan after') := by
  cases hafter with
  | root => exact h.nodes
  | @own m n hm hn hindex =>
    have hm' : m.tree.isSame s = true := by simp [hm, Tree.isSame]
    have hn' : n.tree.isSame t = true := by simp [hn, Tree.isSame]
    rw [Tree.scan, Tree.scan, if_pos hm', if_pos hn']
    exact Node.Alike.following ⟨by rw [hm, hn]; exact h, hindex⟩
  | foreign hm hn =>
    rw [Tree.scan, Tree.scan, hm, hn]
    exact .nil

inductive Query
  | root
  | path (path : String)
  | name (name : String)
  | type (deviceType : String)
  | phandle (handle : UInt32)
  | compatible (deviceType : Option String) (name : String)
  | table (table : List String)

/-- The node that is found behind a given one, or from the root on, and the position in the table
where one is given. -/
def Tree.ask (t : Tree) (after : Option Node) : Query → Option (Node × Option Nat)
  | .root => some (t.root, none)
  | .path path => (t.findByPath path).map (·, none)
  | .name name => (t.findByName after name).map (·, none)
  | .type deviceType => (t.findByType after deviceType).map (·, none)
  | .phandle handle => (t.findByPhandle after handle).map (·, none)
  | .compatible deviceType name => (t.findCompatible after deviceType name).map (·, none)
  | .table table => (t.findMatching after table).map fun (n, i) => (n, some i)

def Machine.ask (m : Machine) (after : Option Node) : Query → Option (Node × Option Nat)
  | .root => m.root.map (·, none)
  | .path path => (m.findByPath path).map (·, none)
  | .name name => (m.findByName after name).map (·, none)
  | .type deviceType => (m.findByType after deviceType).map (·, none)
  | .phandle handle => (m.findByPhandle after handle).map (·, none)
  | .compatible deviceType name => (m.findCompatible after deviceType name).map (·, none)
  | .table table => (m.findMatching after table).map fun (n, i) => (n, some i)

theorem Machine.ask_eq (m : Machine) (after : Option Node) (q : Query) :
    m.ask after q = m.tree.bind fun t => t.ask after q := by
  unfold Machine.ask
  cases q <;>
    simp only [Machine.root, Machine.findByPath, Machine.findByName, Machine.findByType,
      Machine.findByPhandle, Machine.findCompatible, Machine.findMatching] <;>
    cases m.tree <;> rfl

section Answers

variable {α β γ δ : Type} {R : α → β → Prop} {S : γ → δ → Prop} {l : List α} {l' : List β}

theorem rel_findSome? {f : α → Option γ} {g : β → Option δ} (hl : List.Forall₂ R l l')
    (hfg : ∀ a b, R a b → Option.Rel S (f a) (g b)) :
    Option.Rel S (l.findSome? f) (l'.findSome? g) := by
  induction hl with
  | nil => exact .none
  | @cons a b _ _ h _ ih =>
    rw [List.findSome?_cons, List.findSome?_cons]
    have hrel := hfg a b h
    revert hrel
    cases f a <;> cases g b <;> intro hrel <;> cases hrel
    · exact ih
    · exact .some ‹_›

theorem rel_find? {p : α → Bool} {q : β → Bool} (hl : List.Forall₂ R l l')
    (hpq : ∀ a b, R a b → p a = q b) : Option.Rel R (l.find? p) (l'.find? q) := by
  rw [List.find?_eq_findSome?_guard, List.find?_eq_findSome?_guard]
  refine rel_findSome? hl fun a b h => ?_
  unfold Option.guard
  rw [hpq a b h]
  split
  · exact .some h
  · exact .none

theorem rel_map {x : Option α} {y : Option β} {f : α → γ} {g : β → δ} (h : Option.Rel R x y)
    (hfg : ∀ a b, R a b → S (f a) (g b)) : Option.Rel S (x.map f) (y.map g) := by
  cases h with
  | none => exact .none
  | some h => exact .some (hfg _ _ h)

end Answers

/-- The answers name nodes at one position of alike trees, and one entry of a table. -/
def SameAnswer (x y : Node × Option Nat) : Prop := x.1.Alike y.1 ∧ x.2 = y.2

theorem Tree.Alike.ask (h : s.Alike t) {after after' : Option Node}
    (hafter : Counterpart s t after after') (q : Query) :
    Option.Rel SameAnswer (s.ask after q) (t.ask after' q) := by
  have hscan := h.scan hafter
  cases q with
  | root => exact .some ⟨⟨h, rfl⟩, rfl⟩
  | path path =>
    refine rel_map (rel_find? h.nodes fun m n hmn => ?_) fun _ _ hmn => ⟨hmn, rfl⟩
    rw [Node.pathBytes, Node.pathBytes, hmn.twin.record]
  | name name =>
    refine rel_map (rel_find? hscan fun m n hmn => ?_) fun _ _ hmn => ⟨hmn, rfl⟩
    rw [hmn.twin.nameBytes]
  | type deviceType =>
    refine rel_map (rel_find? hscan fun m n hmn => ?_) fun _ _ hmn => ⟨hmn, rfl⟩
    rw [hmn.twin.typeBytes]
  | phandle handle =>
    refine rel_map (rel_find? hscan fun m n hmn => ?_) fun _ _ hmn => ⟨hmn, rfl⟩
    rw [Node.phandle, Node.phandle, hmn.twin.record]
  | compatible deviceType name =>
    refine rel_map (rel_find? hscan fun m n hmn => ?_) fun _ _ hmn => ⟨hmn, rfl⟩
    rw [hmn.twin.typeBytes, hmn.twin.isCompatible]
  | table table =>
    have hfound : Option.Rel (fun x y : Node × Nat => x.1.Alike y.1 ∧ x.2 = y.2)
        (s.findMatching after table) (t.findMatching after' table) := by
      refine rel_findSome? hscan fun m n hmn => ?_
      rw [hmn.twin.matchTable]
      cases n.matchTable table with
      | none => exact .none
      | some i => exact .some ⟨hmn, rfl⟩
    exact rel_map hfound fun _ _ hxy => ⟨hxy.1, congrArg some hxy.2⟩

namespace Build

/-- Built trees with the same records read the same values if each reads back what was written, and
also if the records themselves appear alike in the blocks. -/
theorem twin_of_build {b : Blob} {heap : Heap} (hs : (build b heap).result = .ok s)
    (hrecords : s.records = t.records)
    (hblocks : s.ReadsBack ∧ t.ReadsBack ∨ s.imprint = t.imprint) : s.Twin t := by
  have hvalue : ∀ r ∈ s.records, ∀ q ∈ r.properties, s.read q = t.read q := by
    intro r hr q hq
    rcases hblocks with ⟨hback, hback'⟩ | himprint
    · rw [hback r hr q hq, hback' r (hrecords ▸ hr) q hq]
    · rw [Tree.read_congr hrecords himprint]
  refine ⟨hrecords, hvalue, fun r hr => Option.map_congr fun q hq => ?_⟩
  exact hvalue r hr q ((isKept_of_build hs r hr).mem_of_name hq)

/-- Builds of one blob agree in all but the block, whatever they met before. In a tree of 4 GiB or
more a name may be read from where records are, so there these have to appear alike. -/
theorem alike_of_build {b : Blob} {heap other : Heap} (hs : (build b heap).result = .ok s)
    (ht : (build b other).result = .ok t)
    (hblocks : t.size < 2 ^ 32 ∨ heap.imprint = other.imprint) : s.Alike t := by
  obtain ⟨p, hp, hm, hblob, hcount, hrecords⟩ := populate_of_build hs
  obtain ⟨p', hp', hm', hblob', hcount', hrecords'⟩ := populate_of_build ht
  have hsize := size_eq_of_measure hm hm'
  rw [hsize] at hp
  obtain rfl := Except.ok.inj (hp.symm.trans hp')
  have hrecords := hrecords.trans hrecords'.symm
  have hblob := hblob.trans hblob'.symm
  refine ⟨twin_of_build hs hrecords (hblocks.imp ?_ ?_), hblob, hsize, hcount.trans hcount'.symm⟩
  · intro hlt
    exact ⟨readsBack_of_build hs (hsize ▸ hlt), readsBack_of_build ht hlt⟩
  · intro himprint
    rw [imprint_of_build hs, imprint_of_build ht, himprint, hblob, hrecords]

/-- A blob that was built once can be built wherever nothing is refused. -/
theorem exists_build_of_build {b : Blob} {heap other : Heap} (hs : (build b heap).result = .ok s)
    (hgrants : ∀ i, other.grants i = true) : ∃ t, (build b other).result = .ok t := by
  obtain ⟨-, -, hm, -⟩ := populate_of_build hs
  obtain ⟨hending, hsize, -⟩ := measure_eq_ok_iff.1 hm
  have hm' : (measure b other).2 = .ok s.size :=
    measure_eq_ok_iff.2 ⟨hending, hsize, fun _ _ => hgrants _⟩
  have hg : (measure b other).1.grants (measure b other).1.requests = true := by
    rw [(serves_measure hm').grants_eq]
    exact hgrants _
  obtain ⟨t, ht, -⟩ := exists_build_of_measure hm' hg
  exact ⟨t, ht⟩

end Build
end Devicetree
