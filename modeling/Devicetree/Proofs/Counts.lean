import Devicetree.Proofs.Cells

/-!
# Interrupt counts

The interrupts of a node take as many cells each as the node's controller says. The count is that of
whole interrupts: every cell of an interrupt that is counted can be read, and of the next one some
cell cannot. Where no number of cells is known there are no interrupts, and nothing is divided.
-/

namespace Devicetree

def Word.div? (a b : UInt64) : Option UInt64 := if b = 0 then none else some (a / b)

theorem Word.div?_of_ne_zero {a b : UInt64} (h : b ≠ 0) :
    ∃ q, div? a b = some q ∧ q.toNat = a.toNat / b.toNat :=
  ⟨a / b, if_neg h, UInt64.toNat_div a b⟩

namespace Node

variable {n : Node} {p : Property} {i j : Nat}

/-- As `interruptCount`, but in words, of which none is divided by zero. -/
def interruptCountChecked (n : Node) : Option UInt64 :=
  let cells := n.interruptCells.value.toUInt64
  if cells = 0 then some 0
  else
    match n.property? "interrupts" with
    | none => some 0
    | some p => do
      let all ← Word.div? (UInt64.ofNat p.length) 4
      Word.div? all cells

theorem interruptCells_eq (n : Node) : n.interruptCells.value =
    (n.interruptParent.value.bind fun c => c.firstCell? interruptCellsKey).getD 0 := by
  simp only [interruptCells, Noticed.map, readCell_eq]

theorem interruptCount_of_cells_eq_zero (h : n.interruptCells.value = 0) :
    n.interruptCount.value = 0 := by
  simp [interruptCount, Noticed.map, h]

theorem interruptCount_of_property?_eq_none (h : n.property? "interrupts" = none) :
    n.interruptCount.value = 0 := by
  simp [interruptCount, Noticed.map, h]

theorem interruptCount_eq (hcells : n.interruptCells.value ≠ 0)
    (hp : n.property? "interrupts" = some p) :
    n.interruptCount.value = p.value.length / 4 / n.interruptCells.value.toNat := by
  simp [interruptCount, Noticed.map, hcells, hp, Property.length]

theorem interruptCount_mul_le (n : Node) : n.interruptCount.value = 0 ∨
    ∃ p, n.property? "interrupts" = some p ∧
      n.interruptCount.value * n.interruptCells.value.toNat ≤ p.value.length / 4 := by
  by_cases hcells : n.interruptCells.value = 0
  · exact .inl (interruptCount_of_cells_eq_zero hcells)
  · cases hp : n.property? "interrupts" with
    | none => exact .inl (interruptCount_of_property?_eq_none hp)
    | some p =>
      rw [interruptCount_eq hcells hp]
      exact .inr ⟨p, rfl, Nat.div_mul_le_self _ _⟩

/-- The number of a cell of an interrupt that is counted, or of the next one, is far from the end of
words, and so is the offset behind the cell. -/
theorem number_lt (hshort : ∀ p ∈ n.properties, p.value.length < 2 ^ 63)
    (hi : i ≤ n.interruptCount.value) (hj : j < n.interruptCells.value.toNat) :
    4 * (i * n.interruptCells.value.toNat + j) + 4 < 2 ^ 64 := by
  have hcells := n.interruptCells.value.toNat_lt
  have hmul := Nat.mul_le_mul_right n.interruptCells.value.toNat hi
  rcases n.interruptCount_mul_le with hzero | ⟨p, hp, hle⟩
  · rw [hzero, Nat.zero_mul] at hmul
    omega
  · have hlength := hshort p (List.mem_of_find?_eq_some hp)
    omega

theorem exists_readCellIndex_iff {name : String} {k : UInt64} (hv : p.value.length < 2 ^ 63)
    (hp : n.HasFirst name p) :
    (∃ w, n.readCellIndex name k = some w) ↔ k.toNat < p.value.length / 4 := by
  rw [Value.readCellIndex_eq hv hp rfl, ← Option.isSome_iff_exists, ← Value.length_cells]
  simp only [isSome_getElem?]

/-- How many interrupts a node has, by which cells can be read. -/
structure CountsInterrupts (n : Node) : Prop where
  cells_eq : n.interruptCells.value =
    (n.interruptParent.value.bind fun c => c.firstCell? interruptCellsKey).getD 0
  /-- A controller that has no whole cell to say it with says zero. -/
  cells_eq_zero : (∀ c ∈ n.interruptParent.value, ∀ p, c.HasFirst interruptCellsKey p →
    p.value.length < 4) → n.interruptCells.value = 0
  checked : ∃ w, n.interruptCountChecked = some w ∧ w.toNat = n.interruptCount.value
  eq_zero : n.interruptCells.value = 0 ∨
    (∀ p ∈ n.properties, p.record.name ≠ Bytes.ofString "interrupts") → n.interruptCount.value = 0
  readable : n.interruptCells.value ≠ 0 → ∀ p, n.HasFirst "interrupts" p →
    ∀ i < n.interruptCount.value, ∀ j < n.interruptCells.value.toNat, ∃ k : UInt64,
      k.toNat = i * n.interruptCells.value.toNat + j ∧
      ∃ w, n.readCellIndex "interrupts" k = some w
  unreadable : n.interruptCells.value ≠ 0 → ∀ p, n.HasFirst "interrupts" p →
    ∃ j < n.interruptCells.value.toNat, ∃ k : UInt64,
      k.toNat = n.interruptCount.value * n.interruptCells.value.toNat + j ∧
      n.readCellIndex "interrupts" k = none
  number_lt : ∀ i ≤ n.interruptCount.value, ∀ j < n.interruptCells.value.toNat,
    4 * (i * n.interruptCells.value.toNat + j) + 4 < 2 ^ 64

theorem exists_interruptCountChecked (hshort : ∀ p ∈ n.properties, p.value.length < 2 ^ 63) :
    ∃ w, n.interruptCountChecked = some w ∧ w.toNat = n.interruptCount.value := by
  have hword : n.interruptCells.value.toUInt64 = 0 ↔ n.interruptCells.value = 0 := by
    rw [← UInt64.toNat_inj, ← UInt32.toNat_inj, UInt32.toNat_toUInt64]
    rfl
  by_cases hcells : n.interruptCells.value = 0
  · exact ⟨0, if_pos (hword.2 hcells), (interruptCount_of_cells_eq_zero hcells).symm⟩
  · rw [interruptCountChecked, if_neg (mt hword.1 hcells)]
    cases hp : n.property? "interrupts" with
    | none => exact ⟨0, rfl, (interruptCount_of_property?_eq_none hp).symm⟩
    | some p =>
      have hlength := hshort p (List.mem_of_find?_eq_some hp)
      obtain ⟨all, hall, hquotient⟩ :=
        Word.div?_of_ne_zero (a := UInt64.ofNat p.length) (b := 4) (by decide)
      obtain ⟨w, hw, hcount⟩ := Word.div?_of_ne_zero (a := all) (mt hword.1 hcells)
      refine ⟨w, by simp [hall, hw], ?_⟩
      rw [hcount, hquotient, UInt32.toNat_toUInt64, interruptCount_eq hcells hp]
      change (UInt64.ofNat p.value.length).toNat / 4 / _ = _
      rw [Bytes.toNat_ofNat_length hlength]

theorem countsInterrupts (hshort : ∀ p ∈ n.properties, p.value.length < 2 ^ 63) :
    n.CountsInterrupts := by
  have hnumber : ∀ {i j}, i ≤ n.interruptCount.value → j < n.interruptCells.value.toNat →
      (UInt64.ofNat (i * n.interruptCells.value.toNat + j)).toNat =
        i * n.interruptCells.value.toNat + j := by
    intro i j hi hj
    have hlt := number_lt hshort hi hj
    rw [UInt64.toNat_ofNat', Nat.mod_eq_of_lt (by omega)]
  constructor
  case cells_eq => exact n.interruptCells_eq
  case cells_eq_zero =>
    intro hnone
    rw [interruptCells_eq]
    cases hc : n.interruptParent.value with
    | none => rfl
    | some c =>
      rw [Option.bind_some, firstCell?]
      cases hp : c.property? interruptCellsKey with
      | none => rfl
      | some p => simp [hnone c hc p (property?_eq_some_iff.1 hp)]
  case checked => exact exists_interruptCountChecked hshort
  case eq_zero =>
    rintro (hcells | hnone)
    · exact interruptCount_of_cells_eq_zero hcells
    · apply interruptCount_of_property?_eq_none
      simpa [property?, List.find?_eq_none] using hnone
  case readable =>
    intro hcells p hfirst i hi j hj
    have hp := property?_eq_some_iff.2 hfirst
    have hv := hshort p (List.mem_of_find?_eq_some hp)
    refine ⟨_, hnumber (Nat.le_of_lt hi) hj, (exists_readCellIndex_iff hv hfirst).2 ?_⟩
    rw [hnumber (Nat.le_of_lt hi) hj]
    -- the whole interrupt ends where the next one starts, which is not behind the last cell
    have hnext :=
      (Nat.le_div_iff_mul_le (Nat.zero_lt_of_lt hj)).1 (interruptCount_eq hcells hp ▸ hi)
    rw [Nat.succ_mul] at hnext
    omega
  case unreadable =>
    intro hcells p hfirst
    have hp := property?_eq_some_iff.2 hfirst
    have hv := hshort p (List.mem_of_find?_eq_some hp)
    have hpos : 0 < n.interruptCells.value.toNat :=
      Nat.pos_of_ne_zero fun h => hcells (UInt32.toNat_inj.1 h)
    -- the first number behind those of all cells
    have hj := Nat.mod_lt (p.value.length / 4) hpos
    refine ⟨_, hj, _, hnumber (Nat.le_refl _) hj, ?_⟩
    rw [← Option.not_isSome_iff_eq_none, Option.isSome_iff_exists,
      exists_readCellIndex_iff hv hfirst, hnumber (Nat.le_refl _) hj,
      interruptCount_eq hcells hp, Nat.div_add_mod']
    exact Nat.lt_irrefl _
  case number_lt => exact fun i hi j hj => number_lt hshort hi hj

end Node

/-- A root that counts two cells to an interrupt, and a child that lists two interrupts, another
cell and a byte. -/
def Blob.sampleInterrupts : Blob where
  address := 0x1000
  bytes := List.flatMap Bytes.ofWord32
    [0xd00dfeed, 148, 40, 120, 40, 17, 16, 0, 28, 80, 1, 0, 3, 4, 0, 2,
      1, 0x61000000, 3, 21, 17, 1, 2, 3, 4, 5, 0x06000000, 2, 2, 9] ++
    Bytes.ofString "#interrupt-cells" ++ [0] ++ Bytes.ofString "interrupts" ++ [0]
  headerSize_le := by decide +kernel
  length_lt := by decide +kernel

namespace Build

/-- A node of a built tree has as many interrupts as all of their cells can be read, and no more. It
has none if it lists none or its controller, found or not, says no number of cells; nothing is
divided by zero, and no number of a cell is past the last word. -/
theorem countsInterrupts_of_build {b : Blob} {heap : Heap} {t : Tree} {n : Node}
    (h : (build b heap).result = .ok t) (hn : n ∈ t.nodes) : n.CountsInterrupts :=
  Node.countsInterrupts fun _ hp => length_value_lt h ((mem_nodes_of_build h).1 hn) hp

theorem countsInterrupts_of_build_sample :
    ∃ t n p, (build .sampleInterrupts (.fresh 0)).result = .ok t ∧ n ∈ t.nodes ∧
      n.interruptCells.value = 2 ∧ n.interruptCount.value = 2 ∧ n.HasFirst "interrupts" p ∧
      (∃ w, n.readCellIndex "interrupts" 3 = some w) ∧
      ∃ j < 2, ∃ k : UInt64, k.toNat = 4 + j ∧ n.readCellIndex "interrupts" k = none := by
  have hcheck : (build .sampleInterrupts (.fresh 0)).result.toOption.map (fun t =>
      t.nodes[1]?.map fun n => (n.interruptCells.value, n.interruptCount.value,
        (n.property? "interrupts").map Property.length)) = some (some (2, 2, some 21)) := by
    decide +kernel
  obtain ⟨t, ht, hnode⟩ := exists_of_result hcheck
  obtain ⟨n, hn, hanswers⟩ := Option.map_eq_some_iff.1 hnode
  obtain ⟨hcells, hrest⟩ := Prod.mk.inj hanswers
  obtain ⟨hcount, hlength⟩ := Prod.mk.inj hrest
  obtain ⟨p, hp, -⟩ := Option.map_eq_some_iff.1 hlength
  have hfirst := Node.property?_eq_some_iff.1 hp
  have hmem := List.mem_of_getElem? hn
  have hcounts := countsInterrupts_of_build ht hmem
  have htwo : n.interruptCells.value.toNat = 2 := congrArg UInt32.toNat hcells
  have hne : n.interruptCells.value ≠ 0 := by
    rw [hcells]
    decide
  have hreadable := hcounts.readable hne p hfirst 1 (by omega) 1 (by omega)
  have hunreadable := hcounts.unreadable hne p hfirst
  rw [htwo] at hreadable hunreadable
  rw [hcount] at hunreadable
  obtain ⟨k, hk, hread⟩ := hreadable
  obtain rfl : k = 3 := UInt64.toNat_inj.1 hk
  exact ⟨t, n, p, ht, hmem, hcells, hcount, hfirst, hread, hunreadable⟩

end Build
end Devicetree
