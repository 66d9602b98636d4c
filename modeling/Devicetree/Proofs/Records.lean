import Devicetree.Proofs.Passes
import Mathlib.Data.List.Nodup

/-!
# Records

What new records satisfy and no property undoes holds of every record of a tree, since links are
all that changes otherwise. It holds of the values that a record keeps apart for its node's name,
type and handle: they are those of the last properties that give them.
-/

namespace Devicetree

namespace Build
namespace Populating

variable {p q : Populating} {e : Event} {events : List Event} {size : Nat} {P : NodeRecord → Prop}

theorem forall_mem_append (hlinks : ∀ r, P r.content ↔ P r) {records : List NodeRecord}
    {offset : UInt32} {path : Bytes} {parent last : Option Nat} (h : ∀ r ∈ records, P r)
    (hleaf : P (.leaf offset path parent)) :
    ∀ r ∈ append records offset path parent last, P r := by
  intro r hr
  have hmem : r.content ∈ (append records offset path parent last).map NodeRecord.content :=
    List.mem_map_of_mem hr
  rw [map_append NodeRecord.ignoresLinks_content, List.mem_append, List.mem_singleton] at hmem
  rw [← hlinks]
  rcases hmem with hmem | hmem
  · obtain ⟨r₀, hr₀, heq⟩ := List.mem_map.1 hmem
    rw [← heq, hlinks]
    exact h r₀ hr₀
  · rw [hmem, hlinks]
    exact hleaf

theorem forall_mem_attach {records : List NodeRecord} {p : PropertyRecord}
    (h : ∀ r ∈ records, P r) (hadd : ∀ r, P r → P (r.addProperty p)) :
    ∀ r ∈ attach records p, P r := by
  intro r hr
  obtain ⟨i, hi⟩ := List.mem_iff_getElem?.1 hr
  unfold attach at hi
  rw [List.getElem?_modify] at hi
  obtain ⟨r₀, hr₀, rfl⟩ := Option.map_eq_some_iff.1 hi
  have hr₀ := h r₀ (List.mem_of_getElem? hr₀)
  split
  · exact hadd r₀ hr₀
  · exact hr₀

/-- What holds of new records, survives new properties and does not depend on links holds of every
record. The only values stored in the block are names. -/
theorem forall_mem_run (hlinks : ∀ r, P r.content ↔ P r)
    (hleaf : ∀ offset path parent, P (.leaf offset path parent))
    (hadd : ∀ r p, (p.isInline = true → p.name = nameKey) → P r → P (r.addProperty p))
    (h : ∀ r ∈ p.records, P r) (hr : p.run size events = .ok q) : ∀ r ∈ q.records, P r := by
  induction events generalizing p with
  | nil =>
    cases hr
    exact h
  | cons e rest ih =>
    obtain ⟨p', hs, hrest⟩ := run_cons_eq_ok.1 hr
    apply ih _ hrest
    cases step_eq_ok_iff.1 hs with
    | startNode _ _ => exact forall_mem_append hlinks h (hleaf _ _ _)
    | property _ _ => exact forall_mem_attach h fun r => hadd r _ (by simp)
    | endProperties _ _ _ => exact forall_mem_attach h fun r => hadd r _ fun _ => rfl
    | endProperties_of_isNamed _ => exact h
    | endNode => exact h

end Populating
end Build

/-! ## Values kept apart -/

def valueOf (key : Bytes) (properties : List (Bytes × Bytes)) : Option Bytes :=
  (properties.find? fun p => p.1 = key).map Prod.snd

theorem valueOf_cons (key : Bytes) (p : Bytes × Bytes) (properties : List (Bytes × Bytes)) :
    valueOf key (p :: properties) = if p.1 = key then some p.2 else valueOf key properties := by
  unfold valueOf
  rw [List.find?_cons]
  by_cases h : p.1 = key <;> simp [h]

theorem valueOf_append (key : Bytes) (first rest : List (Bytes × Bytes)) :
    valueOf key (first ++ rest) = (valueOf key first).or (valueOf key rest) := by
  unfold valueOf
  rw [List.find?_append, Option.map_or]

theorem valueOf_eq_none_iff {key : Bytes} {properties : List (Bytes × Bytes)} :
    valueOf key properties = none ↔ key ∉ properties.map Prod.fst := by
  induction properties with
  | nil => simp [valueOf]
  | cons p properties ih =>
    rw [valueOf_cons, List.map_cons, List.mem_cons, not_or, ← ih]
    split
    · rename_i hkey
      simp [hkey]
    · rename_i hkey
      simp [Ne.symm hkey]

theorem valueOf_eq_some_iff {key value : Bytes} {properties : List (Bytes × Bytes)}
    (h : (properties.map Prod.fst).Nodup) :
    valueOf key properties = some value ↔ (key, value) ∈ properties := by
  induction properties with
  | nil => simp [valueOf]
  | cons p properties ih =>
    obtain ⟨hp, hrest⟩ := List.nodup_cons.1 h
    rw [valueOf_cons, List.mem_cons]
    split
    · rename_i hkey
      have hnot : (key, value) ∉ properties := fun hmem => hp (List.mem_map.2 ⟨_, hmem, hkey.symm⟩)
      simp [hnot, Prod.ext_iff, hkey, eq_comm]
    · rename_i hkey
      have hne : (key, value) ≠ p := fun heq => hkey (heq ▸ rfl)
      simp [hne, ih hrest]

/-- No two properties have one name, so either end of the list may be searched first. -/
theorem valueOf_reverse (key : Bytes) {properties : List (Bytes × Bytes)}
    (h : (properties.map Prod.fst).Nodup) :
    valueOf key properties.reverse = valueOf key properties := by
  have hreverse : (properties.reverse.map Prod.fst).Nodup := by
    rw [List.map_reverse]
    exact List.nodup_reverse.2 h
  apply Option.ext
  intro value
  rw [valueOf_eq_some_iff hreverse, valueOf_eq_some_iff h, List.mem_reverse]

theorem NodeRecord.valueOf_draft (r : NodeRecord) (key : Bytes) :
    valueOf key r.draft.properties.reverse =
      (r.properties.reverse.find? fun p => p.name = key).map PropertyRecord.value := by
  rw [valueOf, draft, ← List.map_reverse, List.find?_map, Option.map_map]
  rfl

/-- A record's name, type and handle are those of the last properties that give them, and none but
the properties for its name hold their values themselves. -/
structure NodeRecord.IsKept (r : NodeRecord) : Prop where
  name : r.name = r.properties.reverse.find? fun p => p.name = nameKey
  deviceType : r.deviceType = (valueOf deviceTypeKey r.draft.properties.reverse).getD nullName
  phandle : r.phandle = (valueOf phandleKey r.draft.properties.reverse).bind (Bytes.word32? · 0)
  isInline : ∀ p ∈ r.properties, p.isInline = true → p.name = nameKey

theorem NodeRecord.IsKept.mem_of_name {r : NodeRecord} {p : PropertyRecord} (h : r.IsKept)
    (hp : r.name = some p) : p ∈ r.properties :=
  List.mem_reverse.1 (List.mem_of_find?_eq_some (h.name ▸ hp))

theorem NodeRecord.kept_of_addProperty (r : NodeRecord) (p : PropertyRecord) :
    (r.addProperty p).name = (if p.name = nameKey then some p else r.name) ∧
      (r.addProperty p).deviceType = (if p.name = deviceTypeKey then p.value else r.deviceType) ∧
      (r.addProperty p).phandle =
        if p.name = phandleKey then p.value.word32? 0 else r.phandle := by
  have htype : deviceTypeKey ≠ nameKey := by decide
  have hhandle : phandleKey ≠ nameKey ∧ phandleKey ≠ deviceTypeKey := by decide
  unfold NodeRecord.addProperty
  by_cases hname : p.name = nameKey
  · simp [hname, htype.symm, hhandle.1.symm]
  · by_cases hdevice : p.name = deviceTypeKey
    · simp [hdevice, htype, hhandle.2.symm]
    · by_cases hphandle : p.name = phandleKey
      · simp [hphandle, hhandle]
      · simp [hname, hdevice, hphandle]

theorem NodeRecord.IsKept.addProperty {r : NodeRecord} (h : r.IsKept) {p : PropertyRecord}
    (hp : p.isInline = true → p.name = nameKey) : (r.addProperty p).IsKept := by
  have hproperties : (r.addProperty p).draft.properties.reverse =
      (p.name, p.value) :: r.draft.properties.reverse := by
    rw [r.draft_addProperty p]
    simp
  obtain ⟨hname, hdeviceType, hphandle⟩ := r.kept_of_addProperty p
  constructor
  case name =>
    rw [addProperty_properties, List.reverse_concat, List.find?_cons, hname, h.name]
    by_cases hkey : p.name = nameKey <;> simp [hkey]
  case deviceType =>
    rw [hproperties, valueOf_cons, hdeviceType]
    split
    · rfl
    · exact h.deviceType
  case phandle =>
    rw [hproperties, valueOf_cons, hphandle]
    split
    · rfl
    · exact h.phandle
  case isInline =>
    intro q hq
    rw [addProperty_properties, List.mem_append, List.mem_singleton] at hq
    rcases hq with hq | rfl
    · exact h.isInline q hq
    · exact hp

open Build in
/-- The records of every tree keep the values that their properties give. -/
theorem Build.isKept_of_run {p : Populating} {size : Nat} {events : List Event}
    (hr : Populating.start.run size events = .ok p) : ∀ r ∈ p.records, r.IsKept := by
  have hlinks : ∀ r : NodeRecord, r.content.IsKept ↔ r.IsKept := by
    intro r
    constructor
    · intro h
      exact ⟨h.name, h.deviceType, h.phandle, h.isInline⟩
    · intro h
      exact ⟨h.name, h.deviceType, h.phandle, h.isInline⟩
  have hleaf : ∀ offset path parent, (NodeRecord.leaf offset path parent).IsKept := by
    intro offset path parent
    exact ⟨rfl, rfl, rfl, by simp [NodeRecord.leaf]⟩
  apply Populating.forall_mem_run hlinks hleaf _ _ hr
  · intro r p hp h
    exact h.addProperty hp
  · simp [Populating.start]

theorem Build.isKept_of_build {b : Blob} {heap : Heap} {t : Tree}
    (h : (build b heap).result = .ok t) : ∀ r ∈ t.records, r.IsKept := by
  obtain ⟨p, hp, -, -, -, hrecords⟩ := populate_of_build h
  rw [hrecords]
  exact isKept_of_run (populate_eq_ok hp).1

end Devicetree
