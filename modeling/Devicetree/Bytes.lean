import Devicetree.Word

/-!
# Byte strings

Blobs, names, paths and property values are finite byte strings. Numbers in them are big-endian
and strings end at a NUL byte. Every read takes a 64-bit offset and answers `none` where the
string does not hold what is asked for.
-/

namespace Devicetree

abbrev Bytes := List UInt8

namespace Bytes

/-- The UTF-8 encoding of a text. -/
def ofString (s : String) : Bytes :=
  s.toList.flatMap String.utf8EncodeChar

/-- The number whose base-256 digits are the bytes, the first one leading. -/
def bigEndian (b : Bytes) : Nat :=
  b.foldl (fun n d => 256 * n + d.toNat) 0

def slice? (b : Bytes) (start length : UInt64) : Option Bytes :=
  match Word.add? start length with
  | some stop =>
    if stop.toNat ≤ b.length then some ((b.drop start.toNat).take length.toNat) else none
  | none => none

def word32? (b : Bytes) (off : UInt64) : Option UInt32 :=
  (b.slice? off 4).map fun s => UInt32.ofNat (bigEndian s)

def word64? (b : Bytes) (off : UInt64) : Option UInt64 :=
  (b.slice? off 8).map fun s => UInt64.ofNat (bigEndian s)

def untilNul? : Bytes → Option Bytes
  | [] => none
  | b :: rest => if b = 0 then some [] else (untilNul? rest).map (b :: ·)

/-- The NUL-terminated string that starts at `off`, without its NUL. -/
def string? (b : Bytes) (off : UInt64) : Option Bytes :=
  untilNul? (b.drop off.toNat)

/-- As `string?`, for strings whose NUL is among the first `limit` bytes. -/
def stringWithin? (b : Bytes) (off : UInt64) (limit : Nat) : Option Bytes :=
  untilNul? ((b.drop off.toNat).take limit)

/-- Drops one NUL from the end. -/
def trimNul (b : Bytes) : Bytes :=
  if b.getLast? = some 0 then b.dropLast else b

theorem slice?_eq_some_iff {b s : Bytes} {start length : UInt64} :
    b.slice? start length = some s ↔
      start.toNat + length.toNat < UInt64.size ∧ start.toNat + length.toNat ≤ b.length ∧
        s = (b.drop start.toNat).take length.toNat := by
  unfold slice? Word.add?
  by_cases hword : start.toNat + length.toNat < UInt64.size
  · have hsum : (start + length).toNat = start.toNat + length.toNat := by
      rw [UInt64.toNat_add]
      exact Nat.mod_eq_of_lt hword
    by_cases hle : start.toNat + length.toNat ≤ b.length
    · simp [hword, hle, hsum, eq_comm]
    · simp [hword, hle, hsum]
  · simp [hword]

theorem length_of_slice? {b s : Bytes} {start length : UInt64}
    (h : b.slice? start length = some s) :
    s.length = length.toNat ∧ start.toNat + length.toNat ≤ b.length := by
  obtain ⟨-, hle, rfl⟩ := slice?_eq_some_iff.1 h
  simp only [List.length_take, List.length_drop]
  omega

theorem add_le_of_word32? {b : Bytes} {off : UInt64} {w : UInt32}
    (h : b.word32? off = some w) : off.toNat + 4 ≤ b.length := by
  obtain ⟨s, hs, -⟩ := Option.map_eq_some_iff.1 h
  exact (length_of_slice? hs).2

theorem untilNul?_eq_some_iff {b s : Bytes} :
    untilNul? b = some s ↔ 0 ∉ s ∧ ∃ rest, b = s ++ 0 :: rest := by
  induction b generalizing s with
  | nil => simp [untilNul?]
  | cons x b ih =>
    by_cases hx : x = 0
    · subst hx
      constructor
      · intro h
        cases h
        exact ⟨by simp, b, rfl⟩
      · rintro ⟨hs, rest, h⟩
        cases s with
        | nil => rfl
        | cons y s =>
          cases h
          exact absurd List.mem_cons_self hs
    · rw [untilNul?, if_neg hx, Option.map_eq_some_iff]
      constructor
      · rintro ⟨s, h, rfl⟩
        obtain ⟨hs, rest, rfl⟩ := ih.1 h
        exact ⟨by simp [Ne.symm hx, hs], rest, rfl⟩
      · rintro ⟨hs, rest, h⟩
        cases s with
        | nil => exact absurd (List.cons.inj h).1 hx
        | cons y s =>
          obtain ⟨rfl, rfl⟩ := List.cons.inj h
          exact ⟨s, ih.2 ⟨fun h => hs (List.mem_cons_of_mem _ h), rest, rfl⟩, rfl⟩

theorem length_of_untilNul? {b s : Bytes} (h : untilNul? b = some s) :
    s.length < b.length := by
  obtain ⟨-, rest, rfl⟩ := untilNul?_eq_some_iff.1 h
  simp

section Cut

variable {mark : UInt8} {s : Bytes}

theorem decide_ne_of_notMem (h : mark ∉ s) : ∀ x ∈ s, decide (x ≠ mark) = true := by
  intro x hx
  rw [decide_eq_true_iff]
  rintro rfl
  exact h hx

theorem takeWhile_ne_of_notMem (h : mark ∉ s) : s.takeWhile (· ≠ mark) = s := by
  rw [← List.append_nil s, List.takeWhile_append_of_pos (decide_ne_of_notMem h), List.takeWhile_nil]

theorem takeWhile_ne_append (h : mark ∉ s) (rest : Bytes) :
    (s ++ mark :: rest).takeWhile (· ≠ mark) = s := by
  rw [List.takeWhile_append_of_pos (decide_ne_of_notMem h),
    List.takeWhile_cons_of_neg (by simp), List.append_nil]

end Cut

end Bytes
end Devicetree
