import Devicetree.Proofs.Meaning
import Devicetree.Proofs.RoundTrip
import Devicetree.Search

/-!
# Mirrored properties

A node's name, type and handle are kept apart from its properties. They are those of the last
property of each name, but a look through the properties finds the first. The two agree where no
such name is given twice.
-/

namespace Devicetree

theorem find?_reverse {α : Type} {p : α → Bool} {l : List α} (h : l.countP p ≤ 1) :
    l.reverse.find? p = l.find? p := by
  rw [← List.head?_filter, ← List.head?_filter, List.filter_reverse, List.head?_reverse]
  rw [List.countP_eq_length_filter] at h
  match l.filter p, h with
  | [], _ => rfl
  | [_], _ => rfl

namespace Node

def lastProperty? (n : Node) (name : String) : Option Property :=
  n.properties.reverse.find? fun p => p.record.name = Bytes.ofString name

/-- What is kept apart is what `look` finds among the properties. -/
structure Mirrors (n : Node) (look : String → Option Property) : Prop where
  phandle : n.phandle = (look "phandle").bind fun p => p.value.word32? 0
  name : (look "name").map (fun p => p.value.trimNul) = some n.nameBytes
  deviceType : n.typeBytes = ((look "device_type").map fun p => p.value.trimNul).getD nullName

/-- No two properties have one of the names whose values are kept apart. -/
def HasSingleKeys (n : Node) : Prop :=
  ∀ name ∈ ["name", "device_type", "phandle"],
    n.properties.countP (fun p => p.record.name = Bytes.ofString name) ≤ 1

instance (n : Node) : Decidable n.HasSingleKeys :=
  inferInstanceAs (Decidable (∀ name ∈ ["name", "device_type", "phandle"], _))

variable {n : Node}

theorem HasSingleKeys.property?_eq (h : n.HasSingleKeys) :
    ∀ name ∈ ["name", "device_type", "phandle"], n.property? name = n.lastProperty? name :=
  fun name hname => (find?_reverse (h name hname)).symm

theorem Mirrors.congr {look look' : String → Option Property} (h : n.Mirrors look)
    (hlook : ∀ name ∈ ["name", "device_type", "phandle"], look' name = look name) :
    n.Mirrors look' := by
  obtain ⟨hphandle, hname, hdeviceType⟩ := h
  constructor
  case phandle => rwa [hlook "phandle" (by simp)]
  case name => rwa [hlook "name" (by simp)]
  case deviceType => rwa [hlook "device_type" (by simp)]

theorem lastProperty?_eq (n : Node) (name : String) :
    n.lastProperty? name =
      (n.record.properties.reverse.find? fun r => r.name = Bytes.ofString name).map
        (Property.mk n) := by
  rw [lastProperty?, properties, ← List.map_reverse, List.find?_map]
  rfl

/-- All values but those made for names are in the blob, and are read from there. -/
theorem valueOf_reverse_draft (hkept : n.record.IsKept) {name : String}
    (hname : Bytes.ofString name ≠ nameKey) :
    valueOf (Bytes.ofString name) n.record.draft.properties.reverse =
      (n.lastProperty? name).map Property.value := by
  rw [NodeRecord.valueOf_draft, lastProperty?_eq, Option.map_map]
  refine Option.map_congr fun q hq => ?_
  have hmem : q ∈ n.record.properties := List.mem_reverse.1 (List.mem_of_find?_eq_some hq)
  have hkey : q.name = Bytes.ofString name := by simpa using List.find?_some hq
  have hinline : q.isInline = false := by
    rw [← Bool.not_eq_true]
    exact fun h => hname (hkey ▸ hkept.isInline q hmem h)
  exact (n.tree.read_of_isInline_eq_false hinline).symm

theorem exists_lastProperty? {name : String}
    (h : ∃ p ∈ n.properties, p.record.name = Bytes.ofString name) :
    ∃ p, n.lastProperty? name = some p := by
  obtain ⟨p, hp, hname⟩ := h
  exact Option.isSome_iff_exists.1
    (List.find?_isSome.2 ⟨p, List.mem_reverse.2 hp, decide_eq_true hname⟩)

theorem name_of_lastProperty? {p : Property} (hkept : n.record.IsKept)
    (hp : n.lastProperty? "name" = some p) : n.nameValue = p.value := by
  rw [lastProperty?_eq] at hp
  obtain ⟨q, hq, rfl⟩ := Option.map_eq_some_iff.1 hp
  rw [nameValue, hkept.name, nameKey, hq]
  rfl

theorem mirrors_lastProperty? (hkept : n.record.IsKept)
    (hnamed : ∃ p ∈ n.properties, p.record.name = nameKey) : n.Mirrors n.lastProperty? := by
  constructor
  case phandle =>
    rw [phandle, hkept.phandle, phandleKey, valueOf_reverse_draft hkept (by decide),
      Option.bind_map]
    rfl
  case name =>
    obtain ⟨p, hp⟩ := exists_lastProperty? hnamed
    rw [nameBytes, name_of_lastProperty? hkept hp, hp]
    rfl
  case deviceType =>
    rw [typeBytes, hkept.deviceType, deviceTypeKey, valueOf_reverse_draft hkept (by decide)]
    cases n.lastProperty? "device_type" <;> rfl

end Node

/-- A look through a node's properties agrees with what is kept apart, and so a search for a handle
finds a node exactly where a look for it does. -/
structure Tree.Mirrors (t : Tree) (look : Node → String → Option Property) : Prop where
  node : ∀ n ∈ t.nodes, n.Mirrors (look n)
  findByPhandle : ∀ handle, (∃ n, t.findByPhandle none handle = some n) ↔
    ∃ n ∈ t.nodes, ((look n "phandle").bind fun p => p.value.word32? 0) = some handle

theorem Tree.mirrors {t : Tree} {look : Node → String → Option Property}
    (h : ∀ n ∈ t.nodes, n.Mirrors (look n)) : t.Mirrors look := by
  refine ⟨h, fun handle => ?_⟩
  rw [← Option.isSome_iff_exists, findByPhandle, List.find?_isSome]
  apply exists_congr
  intro n
  apply and_congr_right
  intro hn
  rw [decide_eq_true_iff, (h n hn).phandle]

namespace Build

theorem exists_name_of_build {b : Blob} {heap : Heap} {t : Tree} {n : Node}
    (h : (build b heap).result = .ok t) (hn : n.tree = t) :
    ∃ p ∈ n.properties, p.record.name = nameKey := by
  obtain ⟨k, name, -, -, hmeans⟩ := exists_means_of_node h hn
  obtain ⟨listed, -, hproperties⟩ := hmeans.properties
  have hmem : nameKey ∈ (n.properties.map fun p => (p.record.name, p.value)).map Prod.fst := by
    split at hproperties
    · rwa [hproperties]
    · obtain ⟨value, hproperties, -⟩ := hproperties
      simp [hproperties]
  simpa using hmem

/-- A tree keeps apart what the last properties of its nodes say. A look that finds the first ones
agrees wherever no name is given twice. -/
theorem mirrors_of_build {b : Blob} {heap : Heap} {t : Tree} (h : (build b heap).result = .ok t) :
    t.Mirrors Node.lastProperty? ∧
      (∀ n ∈ t.nodes, n.HasSingleKeys → n.Mirrors n.property?) ∧
      ((∀ n ∈ t.nodes, n.HasSingleKeys) → t.Mirrors Node.property?) := by
  have hlast : ∀ n ∈ t.nodes, n.Mirrors n.lastProperty? := by
    intro n hn
    obtain rfl := (mem_nodes_of_build h).1 hn
    exact Node.mirrors_lastProperty? (isKept_of_build h _ (List.getElem_mem n.index_lt))
      (exists_name_of_build h rfl)
  have hfirst : ∀ n ∈ t.nodes, n.HasSingleKeys → n.Mirrors n.property? :=
    fun n hn hkeys => (hlast n hn).congr hkeys.property?_eq
  exact ⟨Tree.mirrors hlast, hfirst, fun hkeys => Tree.mirrors fun n hn => hfirst n hn (hkeys n hn)⟩

end Build

/-- A root with the handle 5, the type `cpu` and the name `mem`, and a node without properties. -/
def Blob.sampleKeys : Blob where
  address := 0x1000
  bytes := List.flatMap Bytes.ofWord32
    [0xd00dfeed, 144, 40, 116, 0, 17, 16, 0, 28, 76,
      1, 0, 3, 4, 0, 5, 3, 4, 8, 0x63707500, 3, 4, 20, 0x6d656d00, 1, 0x61000000, 2, 2, 9,
      0x7068616e, 0x646c6500, 0x64657669, 0x63655f74, 0x79706500, 0x6e616d65, 0]
  headerSize_le := by decide +kernel
  length_lt := by decide +kernel

namespace Build

theorem mirrors_of_build_sample :
    ∃ t, (build .sampleKeys (.fresh 0)).result = .ok t ∧ t.nodes.length = 2 ∧
      t.root.phandle = some 5 ∧ t.root.typeBytes = Bytes.ofString "cpu" ∧
      t.root.nameBytes = Bytes.ofString "mem" ∧
      t.Mirrors Node.lastProperty? ∧ t.Mirrors Node.property? := by
  have hcheck : ((build .sampleKeys (.fresh 0)).result.toOption.map fun t =>
      (t.nodes.length, t.root.phandle, t.root.typeBytes, t.root.nameBytes,
        t.nodes.all fun n => decide n.HasSingleKeys)) =
      some (2, some 5, Bytes.ofString "cpu", Bytes.ofString "mem", true) := by
    decide +kernel
  obtain ⟨t, ht, hkeys⟩ := exists_of_result hcheck
  simp only [Prod.mk.injEq] at hkeys
  obtain ⟨hlength, hphandle, htype, hname, hkeys⟩ := hkeys
  obtain ⟨hlast, -, hfirst⟩ := mirrors_of_build ht
  refine ⟨t, ht, hlength, hphandle, htype, hname, hlast, hfirst fun n hn => ?_⟩
  exact of_decide_eq_true (List.all_eq_true.1 hkeys n hn)

end Build

/-- A root with two handles, 1 and 2. -/
def Blob.sampleHandles : Blob where
  address := 0x1000
  bytes := List.flatMap Bytes.ofWord32
    [0xd00dfeed, 96, 40, 88, 0, 17, 16, 0, 8, 48,
      1, 0, 3, 4, 0, 1, 3, 4, 0, 2, 2, 9, 0x7068616e, 0x646c6500]
  headerSize_le := by decide +kernel
  length_lt := by decide +kernel

namespace Build

/-- A look for the handle finds the first one, and a search by handle does not. -/
theorem exists_not_mirrors :
    ∃ t, (build .sampleHandles (.fresh 0)).result = .ok t ∧ t.root ∈ t.nodes ∧
      ((t.root.property? "phandle").bind fun p => p.value.word32? 0) = some 1 ∧
      t.findByPhandle none 1 = none ∧ ¬ t.Mirrors Node.property? := by
  have hcheck : ((build .sampleHandles (.fresh 0)).result.toOption.map fun t =>
      ((t.root.property? "phandle").bind fun p => p.value.word32? 0,
        (t.findByPhandle none 1).isSome)) = some (some 1, false) := by
    decide +kernel
  obtain ⟨t, ht, hhandle⟩ := exists_of_result hcheck
  obtain ⟨hfirst, hsearch⟩ := Prod.mk.inj hhandle
  have hroot : t.root ∈ t.nodes := (mem_nodes_of_build ht).2 rfl
  have hnone : t.findByPhandle none 1 = none := Option.not_isSome_iff_eq_none.1 (by simp [hsearch])
  refine ⟨t, ht, hroot, hfirst, hnone, fun hmirrors => ?_⟩
  obtain ⟨n, hn⟩ := (hmirrors.findByPhandle 1).2 ⟨t.root, hroot, hfirst⟩
  rw [hnone] at hn
  contradiction

end Build
end Devicetree
