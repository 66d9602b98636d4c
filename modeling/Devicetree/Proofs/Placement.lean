import Devicetree.Record
import Mathlib.Algebra.Group.Nat.Defs

/-!
# Placing records

A pass asks its cursor for the records of a tree one after another. Each starts at the least
multiple of eight behind the one before, so the offsets depend on the lengths alone, and no two
records overlap. A pass stops at the first record that would start outside half a word.
-/

namespace Devicetree

/-- The least offset for a record that is not below `n`. -/
def recordStart (n : Nat) : Nat := (n + 7) / 8 * 8

theorem le_recordStart (n : Nat) : n ≤ recordStart n := by
  unfold recordStart
  omega

namespace Cursor

/-- The offset behind records of the given lengths, the first of which is placed behind `n`. -/
def placeEnd (n : Nat) : List Nat → Nat
  | [] => n
  | length :: rest => placeEnd (recordStart n + length) rest

theorem le_placeEnd (n : Nat) (lengths : List Nat) : n ≤ placeEnd n lengths := by
  induction lengths generalizing n with
  | nil => exact Nat.le_refl n
  | cons length rest ih =>
    have hstart := le_recordStart n
    have htail := ih (recordStart n + length)
    simp only [placeEnd]
    omega

/-- The offsets of records of the given lengths, the first of which is placed behind `n`. -/
def placeStarts (n : Nat) : List Nat → List Nat
  | [] => []
  | length :: rest => recordStart n :: placeStarts (recordStart n + length) rest

theorem le_placeEnd_of_mem_placeStarts {n s : Nat} {lengths : List Nat}
    (h : s ∈ placeStarts n lengths) : s ≤ placeEnd n lengths := by
  induction lengths generalizing n with
  | nil => simp [placeStarts] at h
  | cons length rest ih =>
    rcases List.mem_cons.1 h with rfl | h
    · have htail := le_placeEnd (recordStart n + length) rest
      simp only [placeEnd]
      omega
    · exact ih h

theorem placeEnd_append (n : Nat) (first rest : List Nat) :
    placeEnd n (first ++ rest) = placeEnd (placeEnd n first) rest := by
  induction first generalizing n with
  | nil => rfl
  | cons length first ih => exact ih _

theorem placeStarts_append (n : Nat) (first rest : List Nat) :
    placeStarts n (first ++ rest) = placeStarts n first ++ placeStarts (placeEnd n first) rest := by
  induction first generalizing n with
  | nil => rfl
  | cons length first ih =>
    rw [List.cons_append, placeStarts, ih]
    rfl

theorem placeEnd_replicate {n length : Nat} (hn : n % 8 = 0) (hlength : length % 8 = 0)
    (count : Nat) : placeEnd n (List.replicate count length) = n + length * count := by
  induction count generalizing n with
  | zero => rfl
  | succ count ih =>
    have hstart : recordStart n = n := by
      unfold recordStart
      omega
    rw [List.replicate_succ, placeEnd, hstart, ih (by omega), Nat.mul_succ]
    omega

theorem toNat_alignUp_recordAlign {c : Cursor} (hc : c.offset.toNat < 2 ^ 63) :
    (Word.alignUp c.offset (UInt64.ofNat recordAlign)).toNat = recordStart c.offset.toNat := by
  have hsize : UInt64.size = 2 ^ 64 := rfl
  rw [Word.toNat_alignUp (n := 8) rfl ⟨3, rfl⟩ (by omega)]
  rfl

variable {c c' : Cursor} {length : Nat} {i : Interval}

theorem reserveRecord_eq (c : Cursor) (length : Nat) :
    c.reserveRecord length =
      let start := Word.alignUp c.offset (UInt64.ofNat recordAlign)
      if start.toNat < UInt32.size then
        some (⟨start.toUInt32, length⟩, ⟨start + UInt64.ofNat length⟩)
      else none := rfl

theorem length_of_reserveRecord (h : c.reserveRecord length = some (i, c')) :
    i.length = length := by
  rw [reserveRecord_eq] at h
  dsimp only at h
  split at h
  · cases h
    rfl
  · contradiction

theorem toNat_of_reserveRecord (hc : c.offset.toNat < 2 ^ 63) (hl : length < 2 ^ 63)
    (h : c.reserveRecord length = some (i, c')) :
    i.offset.toNat = recordStart c.offset.toNat ∧
      c'.offset.toNat = recordStart c.offset.toNat + length ∧
      recordStart c.offset.toNat < 2 ^ 32 := by
  rw [reserveRecord_eq] at h
  dsimp only at h
  split at h
  · rename_i hlt
    have hsize : UInt32.size = 2 ^ 32 := rfl
    rw [hsize, toNat_alignUp_recordAlign hc] at hlt
    cases h
    refine ⟨?_, ?_, hlt⟩
    · rw [UInt64.toNat_toUInt32, toNat_alignUp_recordAlign hc]
      omega
    · rw [UInt64.toNat_add, UInt64.toNat_ofNat', toNat_alignUp_recordAlign hc]
      omega
  · contradiction

theorem exists_reserveRecord (hc : c.offset.toNat < 2 ^ 63)
    (hstart : recordStart c.offset.toNat < 2 ^ 32) :
    ∃ i c', c.reserveRecord length = some (i, c') := by
  have hlt : (Word.alignUp c.offset (UInt64.ofNat recordAlign)).toNat < UInt32.size := by
    rw [toNat_alignUp_recordAlign hc]
    exact hstart
  rw [reserveRecord_eq]
  dsimp only
  rw [if_pos hlt]
  exact ⟨_, _, rfl⟩

end Cursor
end Devicetree
