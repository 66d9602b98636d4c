import Devicetree.Proofs.Decoding

/-!
# Progress

A read never moves the offset back, and moves it whenever there is a word to read, even if the read
fails behind that word. It cannot get past the bytes but for padding. So whoever goes on reading
moves the offset only so often, and every loop over the tokens comes to an end.
-/

namespace Devicetree

namespace Word

/-- Rounding in which the sum has to be a word, even where the rounded number would be one. -/
def alignUp? (w align : UInt64) : Option UInt64 :=
  (add? w align).map fun sum => (sum - 1) &&& ~~~(align - 1)

variable {a b w align : UInt64}

theorem add?_of_lt (h : a.toNat + b.toNat < UInt64.size) :
    add? a b = some (a + b) ∧ (a + b).toNat = a.toNat + b.toNat :=
  ⟨if_pos h, toNat_add rfl rfl h⟩

theorem alignUp?_of_lt (h : w.toNat + align.toNat < UInt64.size) :
    alignUp? w align = some (alignUp w align) := by
  have hsub : w + align - 1 = w + (align - 1) := by grind
  rw [alignUp?, (add?_of_lt h).1, Option.map_some, alignUp, hsub]

end Word

namespace Token

open Bytes

/-! ## One read -/

/-- As `readName`, but every sum has to be a word. -/
def readNameChecked (bytes : Bytes) (legacy : Bool) (off : UInt64) :
    Option (Option (Bytes × UInt64)) :=
  match if legacy then bytes.string? off else bytes.stringWithin? off maxNameLength with
  | none => some none
  | some name => do
    let length ← Word.add? (UInt64.ofNat name.length) 1
    let stop ← Word.add? off length
    let stop ← Word.alignUp? stop 4
    some (some (name, stop))

def valueStartChecked (legacy : Bool) (length : UInt32) (off : UInt64) : Option UInt64 :=
  if legacy then Word.alignUp? off (if 8 ≤ length then 8 else 4) else some off

def readPropertyChecked (bytes : Bytes) (legacy : Bool) (off : UInt64) :
    Option (Option (UInt32 × Bytes) × UInt64) :=
  match bytes.word32? off with
  | none => some (none, off)
  | some length => do
    let second ← Word.add? off 4
    match bytes.word32? second with
    | none => some (none, off)
    | some nameOffset =>
      let header ← Word.add? off 8
      let start ← valueStartChecked legacy length header
      match bytes.slice? start length.toUInt64 with
      | none => some (none, start)
      | some value =>
        let stop ← Word.add? start (UInt64.ofNat value.length)
        let stop ← Word.alignUp? stop 4
        some (some (nameOffset, value), stop)

def readChecked (bytes : Bytes) (legacy : Bool) (off : UInt64) :
    Option (Except Error (Option Token) × UInt64) :=
  match bytes.word32? off with
  | none => some (.error .malformed, off)
  | some tag => do
    let off ← Word.add? off 4
    if tag = beginNodeTag then
      match ← readNameChecked bytes legacy off with
      | some (name, off) => some (.ok (some (.beginNode name)), off)
      | none => some (.error .malformed, off)
    else if tag = endNodeTag then some (.ok (some .endNode), off)
    else if tag = propertyTag then
      match ← readPropertyChecked bytes legacy off with
      | (some (nameOffset, value), off) => some (.ok (some (.property nameOffset value)), off)
      | (none, off) => some (.error .malformed, off)
    else if tag = nopTag then some (.ok (some .nop), off)
    else if tag = endTag then some (.ok none, off)
    else some (.error .malformed, off)

variable {bytes name value : Bytes} {legacy : Bool} {off stop : UInt64} {n : Nat} {length : UInt32}

theorem readNameChecked_eq (hbytes : bytes.length < 2 ^ 63) :
    readNameChecked bytes legacy off = some (readName bytes legacy off) := by
  have hsize : UInt64.size = 2 ^ 64 := rfl
  have hone : (1 : UInt64).toNat = 1 := rfl
  have hfour : (4 : UInt64).toNat = 4 := rfl
  unfold readNameChecked readName
  split
  · rename_i hnone
    rw [hnone, Option.map_none]
  · rename_i name hname
    have hle := (holds_name hname).1.add_length_le
    rw [List.length_append, List.length_singleton] at hle
    have hlength : (UInt64.ofNat name.length).toNat = name.length := toNat_ofNat_length (by omega)
    obtain ⟨hlonger, hlonger'⟩ :=
      Word.add?_of_lt (a := UInt64.ofNat name.length) (b := 1) (by omega)
    obtain ⟨hend, hend'⟩ :=
      Word.add?_of_lt (a := off) (b := UInt64.ofNat name.length + 1) (by omega)
    have hstop := Word.alignUp?_of_lt (w := off + (UInt64.ofNat name.length + 1))
      (show _ + (4 : UInt64).toNat < _ by omega)
    rw [hname, Option.map_some]
    simp only [Option.bind_eq_bind, hlonger, hend, hstop, Option.bind_some]

theorem valueStartChecked_eq (hoff : off.toNat + 8 < UInt64.size) :
    valueStartChecked legacy length off = some (valueStart legacy length off) := by
  unfold valueStartChecked valueStart
  split_ifs
  · exact Word.alignUp?_of_lt hoff
  · exact Word.alignUp?_of_lt (Nat.lt_of_le_of_lt (Nat.add_le_add_left (by decide) _) hoff)
  · rfl

theorem readPropertyChecked_eq (hbytes : bytes.length < 2 ^ 63) (hoff : off.toNat ≤ bytes.length) :
    readPropertyChecked bytes legacy off = some (readProperty bytes legacy off) := by
  have hsize : UInt64.size = 2 ^ 64 := rfl
  have hfour : (4 : UInt64).toNat = 4 := rfl
  have height : (8 : UInt64).toNat = 8 := rfl
  unfold readPropertyChecked readProperty
  cases hlength : bytes.word32? off with
  | none => rfl
  | some length =>
    obtain ⟨hsecond, -⟩ := Word.add?_of_lt (a := off) (b := 4) (by omega)
    obtain ⟨hheader, hheader'⟩ := Word.add?_of_lt (a := off) (b := 8) (by omega)
    have hstart : valueStartChecked legacy length (off + 8) =
        some (valueStart legacy length (off + 8)) := valueStartChecked_eq (by omega)
    simp only [Option.bind_eq_bind, hsecond, hheader, hstart, Option.bind_some]
    cases hname : bytes.word32? (off + 4) with
    | none => rfl
    | some nameOffset =>
      dsimp only
      cases hvalue : bytes.slice? (valueStart legacy length (off + 8)) length.toUInt64 with
      | none => rfl
      | some value =>
        obtain ⟨hvlength, hvle⟩ := length_of_slice? hvalue
        have hword : (UInt64.ofNat value.length).toNat = value.length :=
          toNat_ofNat_length (by omega)
        obtain ⟨hend, hend'⟩ := Word.add?_of_lt (a := valueStart legacy length (off + 8))
          (b := UInt64.ofNat value.length) (by omega)
        have hstop := Word.alignUp?_of_lt
          (w := valueStart legacy length (off + 8) + UInt64.ofNat value.length)
          (show _ + (4 : UInt64).toNat < _ by omega)
        simp only [hend, hstop, Option.bind_some]

/-- No sum of a read wraps. -/
theorem readChecked_eq (hbytes : bytes.length < 2 ^ 63) :
    readChecked bytes legacy off = some (read bytes legacy off) := by
  have hsize : UInt64.size = 2 ^ 64 := rfl
  have hfour : (4 : UInt64).toNat = 4 := rfl
  unfold readChecked read
  cases htag : bytes.word32? off with
  | none => rfl
  | some tag =>
    have hle := add_le_of_word32? htag
    obtain ⟨hnext, hnext'⟩ := Word.add?_of_lt (a := off) (b := 4) (by omega)
    have hproperty : readPropertyChecked bytes legacy (off + 4) =
        some (readProperty bytes legacy (off + 4)) := readPropertyChecked_eq hbytes (by omega)
    simp only [Option.bind_eq_bind, hnext, readNameChecked_eq hbytes, hproperty, Option.bind_some]
    split_ifs
    · cases readName bytes legacy (off + 4) <;> rfl
    · rfl
    · rcases readProperty bytes legacy (off + 4) with ⟨_ | _, _⟩ <;> rfl
    · rfl
    · rfl
    · rfl

def piece? : Token → Option Bytes
  | .beginNode name => some name
  | .property _ value => some value
  | .endNode | .nop => none

/-- How far bytes of a length reach, with padding behind them. -/
def reach (length : Nat) : Nat := (length + 7) / 8 * 8

/-- What a read from `off` does to the offset, and where its answer comes from. -/
structure Progresses (bytes : Bytes) (off : UInt64) (answer : Except Error (Option Token))
    (stop : UInt64) : Prop where
  aligned : stop.toNat % 4 = 0
  le : off.toNat ≤ stop.toNat
  stays_iff : stop = off ↔ bytes.length < off.toNat + 4
  malformed : stop = off → answer = .error .malformed
  le_reach : off.toNat ≤ bytes.length → stop.toNat ≤ reach bytes.length
  piece : ∀ t, answer = .ok (some t) → ∀ s, t.piece? = some s →
    ∃ start, off.toNat ≤ start ∧ bytes.Holds start s ∧ start + s.length ≤ stop.toNat

theorem le_wordEnd (n : Nat) : n ≤ wordEnd n := by
  unfold wordEnd
  omega

theorem le_reach (n : Nat) : n ≤ reach n := by
  unfold reach
  omega

theorem reach_mono {m : Nat} (h : m ≤ n) : reach m ≤ reach n := by
  unfold reach
  omega

theorem wordEnd_le_reach (n : Nat) : wordEnd n ≤ reach n := by
  unfold wordEnd reach
  omega

theorem le_valueBegin (legacy : Bool) (length n : Nat) : n ≤ valueBegin legacy length n := by
  have := le_wordEnd n
  unfold valueBegin
  split_ifs <;> omega

theorem valueBegin_le_reach (legacy : Bool) (length n : Nat) :
    valueBegin legacy length n ≤ reach n := by
  unfold valueBegin
  split_ifs
  · exact Nat.le_refl _
  · exact wordEnd_le_reach n
  · exact le_reach n

/-- A read that finds a word moves on by a word or more, and gets no further than the padding. -/
theorem Reading.bounds {answer : Except Error (Option Token)} {stop : Nat}
    (h : Reading bytes legacy n answer stop) :
    (bytes.length < n + 4 ∧ stop = n ∧ answer = .error .malformed) ∨
      n + 4 ≤ bytes.length ∧ n + 4 ≤ stop ∧ stop ≤ reach bytes.length := by
  have hword : ∀ {w}, bytes.Holds n (ofWord32 w) → n + 4 ≤ bytes.length := fun h => h.add_length_le
  have hreach := le_reach bytes.length
  cases h with
  | short h => exact .inl ⟨h, rfl, rfl⟩
  | endNode h | nop h | stop h | unknown h | unnamed h | headless h =>
    have := hword h
    exact .inr ⟨this, Nat.le_refl _, by omega⟩
  | @beginNode name h hname =>
    have hle := hname.add_length_le
    rw [List.length_append, List.length_singleton] at hle
    have hstart := le_wordEnd (n + 4 + (name.length + 1))
    exact .inr ⟨hword h, by omega, Nat.le_trans (wordEnd_le_reach _) (reach_mono hle)⟩
  | @property length _ value h _ _ _ hvalue =>
    have hstart := le_valueBegin legacy value.length (n + 12)
    have hend := le_wordEnd (valueBegin legacy value.length (n + 12) + value.length)
    exact .inr ⟨hword h, by omega,
      Nat.le_trans (wordEnd_le_reach _) (reach_mono hvalue.add_length_le)⟩
  | @valueless length _ h _ hname =>
    have hstart := le_valueBegin legacy length.toNat (n + 12)
    exact .inr ⟨hword h, by omega,
      Nat.le_trans (valueBegin_le_reach _ _ _) (reach_mono hname.add_length_le)⟩

theorem Reading.piece {t : Token} {s : Bytes} {stop : Nat}
    (h : Reading bytes legacy n (.ok (some t)) stop) (hs : t.piece? = some s) :
    ∃ start, n ≤ start ∧ bytes.Holds start s ∧ start + s.length ≤ stop := by
  cases h with
  | endNode | nop => contradiction
  | beginNode _ hname =>
    cases hs
    refine ⟨n + 4, by omega, hname.left, ?_⟩
    have := le_wordEnd (n + 4 + (s.length + 1))
    omega
  | property _ _ _ _ hvalue =>
    cases hs
    refine ⟨_, ?_, hvalue, le_wordEnd _⟩
    have := le_valueBegin legacy s.length (n + 12)
    omega

theorem progresses_read (hbytes : bytes.length < 2 ^ 63) (legacy : Bool)
    (hoff : off.toNat % 4 = 0) :
    Progresses bytes off (read bytes legacy off).1 (read bytes legacy off).2 := by
  have hreading := reading_read hbytes legacy off
  have hbounds := hreading.bounds
  have heq : (read bytes legacy off).2 = off ↔ (read bytes legacy off).2.toNat = off.toNat :=
    UInt64.toNat_inj.symm
  constructor
  case aligned => exact hreading.mod_four hoff
  case le => omega
  case stays_iff =>
    rw [heq]
    omega
  case malformed =>
    rw [heq]
    intro hstays
    rcases hbounds with ⟨-, -, hanswer⟩ | ⟨-, hmoves, -⟩
    · exact hanswer
    · omega
  case le_reach =>
    intro hle
    unfold reach at *
    omega
  case piece =>
    intro t ht s hs
    rw [ht] at hreading
    exact hreading.piece hs

/-! ## Many reads -/

/-- How many reads of a run move the offset. Each may be told another layout. -/
def moves (bytes : Bytes) : UInt64 → List Bool → Nat
  | _, [] => 0
  | off, legacy :: rest =>
    let stop := (read bytes legacy off).2
    (if stop = off then 0 else 1) + moves bytes stop rest

theorem moves_le (hbytes : bytes.length < 2 ^ 63) (hoff : off.toNat % 4 = 0) (flags : List Bool)
    (hle : off.toNat ≤ reach bytes.length) :
    off.toNat + 4 * moves bytes off flags ≤ reach bytes.length := by
  induction flags generalizing off with
  | nil => exact hle
  | cons legacy rest ih =>
    have hreading := reading_read hbytes legacy off
    have hmod := hreading.mod_four hoff
    rw [moves]
    rcases hreading.bounds with ⟨-, hstays, -⟩ | ⟨-, hmoves, hreach⟩
    · have hsame : (read bytes legacy off).2 = off := UInt64.toNat_inj.1 hstays
      have := ih hoff hle
      simp only [hsame, if_true]
      omega
    · have := ih hmod hreach
      split_ifs <;> omega

end Token
end Devicetree
