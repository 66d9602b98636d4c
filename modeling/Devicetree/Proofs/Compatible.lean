import Devicetree.Proofs.Encoding
import Devicetree.Proofs.Entries
import Devicetree.Proofs.Passes
import Devicetree.Proofs.Utf8
import Devicetree.Search

/-!
# Compatible names

What a node is compatible with stands in the bytes of its first `compatible` property. A name counts
where it fills the bytes from one NUL to the next, the front and the end of the value standing for
NULs, so it counts as a whole or not at all. The value need not end in a NUL or be text.
-/

namespace Devicetree

/-! ## Texts without NULs -/

namespace Bytes

theorem nul_mem_ofString_iff {s : String} : 0 ∈ ofString s ↔ '\x00' ∈ s.toList :=
  mem_ofString_iff (.one rfl)

theorem ofString_eq_nil_iff {s : String} : ofString s = [] ↔ s = "" :=
  @ofString_inj s ""

end Bytes

/-! ## Where entries stand -/

namespace Value

variable {v e before after rest : Bytes} {i : Nat}

/-- The bytes stand at a position of the value, at the front or behind a NUL, and up to the end or
to another NUL. -/
structure IsEntryAt (v e : Bytes) (i : Nat) : Prop where
  holds : v.Holds i e
  front : i = 0 ∨ v[i - 1]? = some 0
  back : i + e.length = v.length ∨ v[i + e.length]? = some 0

theorem isEntryAt_iff : IsEntryAt v e i ↔ ∃ before after, v = before ++ e ++ after ∧
    before.length = i ∧ (before = [] ∨ before.getLast? = some 0) ∧
    (after = [] ∨ after.head? = some 0) := by
  have hfront : ∀ before rest : Bytes, (before.length = 0 ∨
      (before ++ rest)[before.length - 1]? = some 0) ↔ before = [] ∨ before.getLast? = some 0 := by
    intro before rest
    rcases List.eq_nil_or_concat before with rfl | ⟨init, b, rfl⟩
    · simp
    · simp
  have hback : ∀ before after : Bytes, (before.length = (before ++ after).length ∨
      (before ++ after)[before.length]? = some 0) ↔ after = [] ∨ after.head? = some 0 := by
    intro before after
    cases after with
    | nil => simp
    | cons b after => simp
  constructor
  · rintro ⟨⟨before, after, rfl, rfl⟩, hf, hb⟩
    rw [← List.length_append] at hb
    rw [List.append_assoc] at hf
    exact ⟨before, after, rfl, rfl, (hfront _ _).1 hf, (hback _ _).1 hb⟩
  · rintro ⟨before, after, rfl, rfl, hf, hb⟩
    refine ⟨⟨before, after, rfl, rfl⟩, ?_, ?_⟩
    · rw [List.append_assoc]
      exact (hfront _ _).2 hf
    · rw [← List.length_append]
      exact (hback _ _).2 hb

theorem entries_append_nul (before rest : Bytes) :
    entries (before ++ 0 :: rest) = entries (before ++ [0]) ++ entries rest := by
  induction before using entries_induction with
  | nil => exact entries_append List.not_mem_nil rest
  | last e _ he => rw [entries_append he, entries_append he, entries, List.singleton_append]
  | cons e later he ih =>
    rw [List.append_assoc, List.append_assoc, List.cons_append, List.cons_append, entries_append he,
      entries_append he, ih, List.cons_append]

theorem exists_isEntryAt (h : e ∈ entries v) : ∃ i, IsEntryAt v e i := by
  simp only [isEntryAt_iff]
  induction v using entries_induction with
  | nil => contradiction
  | last e' hne he' =>
    rw [entries_of_notMem hne he', List.mem_singleton] at h
    subst h
    exact ⟨0, [], [], by simp⟩
  | cons e' rest he' ih =>
    rw [entries_append he', List.mem_cons] at h
    rcases h with rfl | h
    · exact ⟨0, [], 0 :: rest, by simp⟩
    · obtain ⟨_, before, after, rfl, rfl, hfront, hback⟩ := ih h
      refine ⟨_, e' ++ 0 :: before, after, by simp, rfl, .inr ?_, hback⟩
      rcases hfront with rfl | hlast
      · simp
      · have hne : before ≠ [] := by
          rintro rfl
          contradiction
        rw [getLast?_append e' hne, hlast]

/-- Bytes that start a value and are cut off by a NUL or the end are its first entry. -/
theorem mem_entries_append (hne : e ≠ []) (he : 0 ∉ e) (hback : after = [] ∨ after.head? = some 0) :
    e ∈ entries (e ++ after) := by
  cases after with
  | nil => simp [entries_of_notMem hne he]
  | cons b after =>
    obtain rfl : b = 0 := by simpa using hback
    simp [entries_append he]

theorem IsEntryAt.mem_entries (h : IsEntryAt v e i) (hne : e ≠ []) (he : 0 ∉ e) :
    e ∈ entries v := by
  obtain ⟨before, after, rfl, -, hfront, hback⟩ := isEntryAt_iff.1 h
  have hmem := mem_entries_append hne he hback
  rcases hfront with rfl | hlast
  · exact hmem
  · obtain ⟨init, rfl⟩ := List.getLast?_eq_some_iff.1 hlast
    have hsplit : init ++ [0] ++ e ++ after = init ++ 0 :: (e ++ after) := by simp
    rw [hsplit, entries_append_nul]
    exact List.mem_append_right _ hmem

end Value

/-! ## What nodes are compatible with -/

namespace Node

variable {n : Node} {name : String}

theorem isCompatible_eq_true_iff : n.isCompatible name = true ↔
    name ≠ "" ∧ ∃ p, n.HasFirst "compatible" p ∧ Bytes.ofString name ∈ Value.entries p.value := by
  unfold isCompatible
  simp only [← property?_eq_some_iff]
  cases n.property? "compatible" with
  | none => simp
  | some p =>
    simp only [Option.some.injEq, exists_eq_left', List.any_eq_true, Bool.and_eq_true,
      decide_eq_true_eq, ne_eq, ← Bytes.ofString_eq_nil_iff]
    constructor
    · rintro ⟨_, hmem, hne, rfl⟩
      exact ⟨hne, hmem⟩
    · rintro ⟨hne, hmem⟩
      exact ⟨_, hmem, hne, rfl⟩

/-- A node is compatible with a name just if the name is not empty, has no NUL, and stands in the
value of the node's first `compatible` property with a NUL or an end of the value on each side. So
if the value is cut into pieces at its NULs, the name is a whole piece. -/
theorem isCompatible_iff_isEntryAt (n : Node) (name : String) :
    (n.isCompatible name = true ↔ name ≠ "" ∧ '\x00' ∉ name.toList ∧
      ∃ p, n.HasFirst "compatible" p ∧ ∃ i, Value.IsEntryAt p.value (Bytes.ofString name) i) ∧
    ∀ p pieces, n.HasFirst "compatible" p → Value.CutInto p.value pieces →
      (n.isCompatible name = true ↔ name ≠ "" ∧ Bytes.ofString name ∈ pieces) := by
  constructor
  · rw [isCompatible_eq_true_iff, ← Bytes.nul_mem_ofString_iff]
    constructor
    · rintro ⟨hne, p, hp, hmem⟩
      exact ⟨hne, Value.notMem_of_mem_entries hmem, p, hp, Value.exists_isEntryAt hmem⟩
    · rintro ⟨hne, hnul, p, hp, i, hi⟩
      exact ⟨hne, p, hp, hi.mem_entries (mt Bytes.ofString_eq_nil_iff.1 hne) hnul⟩
  · intro p pieces hp hcut
    rw [isCompatible_eq_true_iff, hcut.eq_entries]
    constructor
    · rintro ⟨hne, q, hq, hmem⟩
      obtain rfl := hq.eq hp
      exact ⟨hne, hmem⟩
    · rintro ⟨hne, hmem⟩
      exact ⟨hne, p, hp, hmem⟩

end Node

/-- A root with two properties called `compatible`. In the first one, an empty entry stands between
two others, and no NUL closes the last. -/
def Blob.sampleCompatible : Blob where
  address := 0x1000
  bytes := List.flatMap Bytes.ofWord32
    [0xd00dfeed, 103, 40, 92, 40, 17, 16, 0, 11, 52,
      1, 0, 3, 5, 0, 0x61620000, 0x63000000, 3, 2, 0, 0x64000000, 2, 9] ++
    Bytes.ofString "compatible" ++ [0]
  headerSize_le := by decide +kernel
  length_lt := by decide +kernel

namespace Node

theorem isCompatible_iff_isEntryAt_sample :
    ∃ t p, (build .sampleCompatible (.fresh 0)).result = .ok t ∧ t.root.HasFirst "compatible" p ∧
      Value.IsEntryAt p.value (Bytes.ofString "c") 4 ∧ t.root.isCompatible "c" = true ∧
      t.root.isCompatible "b" = false ∧ t.root.isCompatible "d" = false ∧
      t.root.isCompatible "" = false := by
  have hcheck : ((build .sampleCompatible (.fresh 0)).result.toOption.map fun t =>
      (t.root.property? "compatible").map Property.value) =
      some (some [0x61, 0x62, 0, 0, 0x63]) := by
    decide +kernel
  obtain ⟨t, ht, hvalue⟩ := Build.exists_of_result hcheck
  obtain ⟨p, hp, hv⟩ := Option.map_eq_some_iff.1 hvalue
  have hfirst := property?_eq_some_iff.1 hp
  have hentry : Value.IsEntryAt p.value (Bytes.ofString "c") 4 := by
    rw [hv]
    exact ⟨⟨[0x61, 0x62, 0, 0], [], by decide, rfl⟩, .inr rfl, .inl (by decide)⟩
  have hcut : Value.CutInto p.value [[0x61, 0x62], [], [0x63]] := by
    rw [hv]
    exact ⟨by decide, by decide, by decide⟩
  have hwhole : ∀ name : String, ¬(name ≠ "" ∧ Bytes.ofString name ∈ [[0x61, 0x62], [], [0x63]]) →
      t.root.isCompatible name = false := by
    intro name hnot
    rw [← Bool.not_eq_true, (isCompatible_iff_isEntryAt t.root name).2 p _ hfirst hcut]
    exact hnot
  refine ⟨t, p, ht, hfirst, hentry, ?_, ?_, ?_, ?_⟩
  · exact (isCompatible_iff_isEntryAt t.root "c").1.2 ⟨by decide, by decide, p, hfirst, 4, hentry⟩
  · exact hwhole "b" (by decide)
  · exact hwhole "d" (by decide)
  · exact hwhole "" (by decide)

end Node
end Devicetree
