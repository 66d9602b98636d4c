import Devicetree.Proofs.Headers
import Devicetree.Proofs.Passes
import Devicetree.Proofs.Progress

/-!
# Loops over tokens

The walk over a structure block is made of loops. One skips the padding before the first node, one
takes the starts and ends of nodes, and inside of it each node has a loop that takes its properties.
Every round of a loop reads a token and moves on by a word or more. So no loop needs more rounds
than there are words, and together they come to the outline of the blob.
-/

namespace Devicetree
namespace Token
namespace Reader

/-- Reads to the end or the first failure, unless that takes more rounds. -/
def collect : Nat → Reader → Option Stream
  | 0, _ => none
  | rounds + 1, r =>
    match r.next.1 with
    | .ok (some t) => (collect rounds r.next.2).map fun s => { s with tokens := t :: s.tokens }
    | .ok none => some ⟨[], .ok ()⟩
    | .error e => some ⟨[], .error e⟩

/-- Skips the padding before the first node. It does not read the node's own token. -/
def skipPadding : Nat → Reader → Option (Except Outline.Ending Reader)
  | 0, _ => none
  | rounds + 1, r =>
    match r.peek with
    | .ok (some (.beginNode _)) => some (.ok r)
    | .ok (some .nop) => skipPadding rounds r.next.2
    | .ok _ => some (.error .empty)
    | .error e => some (.error (.failed e))

/-- Takes the properties of a node. It does not read the token behind them. -/
def takeProperties : Nat → Reader → Option (List Event × Except Error Reader)
  | 0, _ => none
  | rounds + 1, r =>
    match r.peek with
    | .ok (some .nop) => takeProperties rounds r.next.2
    | .ok (some (.property nameOffset value)) =>
      match r.blob.stringAt nameOffset.toUInt64 with
      | .ok name =>
        (takeProperties rounds r.next.2).map fun (events, after) =>
          (.property name value :: events, after)
      | .error e => some ([], .error e)
    | .ok _ => some ([.endProperties], .ok r)
    | .error e => some ([], .error e)

/-- Takes nodes up to the end, each with at most `inner` rounds for its properties. -/
def takeNodes (inner : Nat) : Nat → Reader → Option Outline
  | 0, _ => none
  | rounds + 1, r =>
    match r.next.1 with
    | .ok (some (.beginNode name)) =>
      match takeProperties inner r.next.2 with
      | some (events, .ok r) =>
        (takeNodes inner rounds r).map fun o =>
          ⟨.startNode name :: (events ++ o.events), o.ending⟩
      | some (events, .error e) => some ⟨.startNode name :: events, .failed e⟩
      | none => none
    | .ok (some .endNode) => (takeNodes inner rounds r.next.2).map (Outline.cons .endNode)
    | .ok (some .nop) => takeNodes inner rounds r.next.2
    | .ok (some (.property _ _)) => some (Outline.stop (.failed .malformed))
    | .ok none => some (Outline.stop .complete)
    | .error e => some (Outline.stop (.failed e))

def walk (rounds : Nat) (r : Reader) : Option Outline :=
  match skipPadding rounds r with
  | some (.ok r) => takeNodes rounds rounds r
  | some (.error ending) => some (Outline.stop ending)
  | none => none

def outline (r : Reader) (place : Outline.Place) : Outline :=
  Outline.ofTokens (fun off => r.blob.stringAt off.toUInt64) r.stream.outcome place r.stream.tokens

/-- The reader is at a multiple of four, and has fewer words ahead than there are rounds. -/
structure Lasts (r : Reader) (rounds : Nat) : Prop where
  aligned : r.offset.toNat % 4 = 0
  pos : 0 < rounds
  lt : reach r.blob.bytes.length < r.offset.toNat + 4 * rounds

variable {r r' : Reader} {t : Token} {rounds inner : Nat} {place : Outline.Place} {e : Error}

theorem lasts_of_lt (hoff : r.offset.toNat % 4 = 0)
    (h : reach r.blob.bytes.length / 4 < rounds) : r.Lasts rounds := by
  refine ⟨hoff, by omega, ?_⟩
  have : reach r.blob.bytes.length % 4 = 0 := by
    unfold reach
    omega
  omega

/-- A token that is read uses up a round. -/
theorem Lasts.next (h : r.Lasts (rounds + 1)) (ht : r.next.1 = .ok (some t)) :
    r.next.2.Lasts rounds := by
  obtain ⟨haligned, -, hlt⟩ := h
  have hreading := reading_read r.blob.length_lt_half r.blob.isLegacy r.offset
  rw [show (read r.blob.bytes r.blob.isLegacy r.offset).1 = .ok (some t) from ht] at hreading
  rcases hreading.bounds with ⟨-, -, hfailed⟩ | ⟨-, hmoves, hreach⟩
  · contradiction
  · change r.offset.toNat + 4 ≤ r.next.2.offset.toNat at hmoves
    change r.next.2.offset.toNat ≤ reach r.next.2.blob.bytes.length at hreach
    change reach r.next.2.blob.bytes.length < _ at hlt
    exact ⟨hreading.mod_four haligned, by omega, by omega⟩

theorem Lasts.of_next (h : r.Lasts rounds) (ht : r.next.1 = .ok (some t)) :
    r.next.2.Lasts rounds := by
  obtain ⟨rounds, rfl⟩ := Nat.exists_eq_succ_of_ne_zero (Nat.ne_of_gt h.pos)
  obtain ⟨haligned, hpos, hlt⟩ := h.next ht
  exact ⟨haligned, Nat.succ_pos _, by omega⟩

theorem outline_of_next (ht : r.next.1 = .ok (some t)) :
    r.outline place = Outline.ofTokens (fun off => r.blob.stringAt off.toUInt64)
      r.next.2.stream.outcome place (t :: r.next.2.stream.tokens) := by
  rw [outline, stream_of_next ht]

theorem collect_eq (h : r.Lasts rounds) : collect rounds r = some r.stream := by
  induction rounds generalizing r with
  | zero => exact absurd h.pos (Nat.lt_irrefl 0)
  | succ rounds ih =>
    rw [collect]
    split
    · rename_i t ht
      rw [ih (h.next ht), Option.map_some, stream_of_next ht]
    · rename_i hnone
      rw [stream_of_next_none hnone]
    · rename_i e he
      rw [stream_of_next_error he]

theorem outline_of_next_nop (hnext : r.next.1 = .ok (some .nop)) :
    r.outline place = r.next.2.outline place := by
  rw [outline_of_next hnext]
  cases place <;> rfl

/-- What the loop over a node's properties comes to: the events it took, and then a failure or a
reader from which the nodes go on. -/
def Closes (r : Reader) (events : List Event) : Except Error Reader → Prop
  | .ok r' => (∀ rounds, r.Lasts rounds → r'.Lasts rounds) ∧
      r.outline .header = ⟨events ++ (r'.outline .body).events, (r'.outline .body).ending⟩
  | .error e => r.outline .header = ⟨events, .failed e⟩

variable {events : List Event} {after : Except Error Reader} {name value : Bytes}
  {nameOffset : UInt32}

theorem Closes.nop (hnext : r.next.1 = .ok (some .nop)) (h : r.next.2.Closes events after) :
    r.Closes events after := by
  cases after with
  | ok r' =>
    exact ⟨fun rounds hlasts => h.1 rounds (hlasts.of_next hnext),
      (outline_of_next_nop hnext).trans h.2⟩
  | error e => exact (outline_of_next_nop hnext).trans h

theorem Closes.property (hnext : r.next.1 = .ok (some (.property nameOffset value)))
    (hname : r.blob.stringAt nameOffset.toUInt64 = .ok name) (h : r.next.2.Closes events after) :
    r.Closes (.property name value :: events) after := by
  have houtline : r.outline .header =
      Outline.cons (.property name value) (r.next.2.outline .header) := by
    rw [outline_of_next hnext, Outline.ofTokens, hname]
    rfl
  cases after with
  | ok r' =>
    refine ⟨fun rounds hlasts => h.1 rounds (hlasts.of_next hnext), ?_⟩
    rw [houtline, h.2]
    rfl
  | error e =>
    rw [Closes] at h ⊢
    rw [houtline, h]
    rfl

theorem takeProperties_eq (h : r.Lasts rounds) :
    ∃ events after, takeProperties rounds r = some (events, after) ∧ r.Closes events after := by
  induction rounds generalizing r with
  | zero => exact absurd h.pos (Nat.lt_irrefl 0)
  | succ rounds ih =>
    have hpeek : r.peek = r.next.1 := rfl
    rw [takeProperties, hpeek]
    cases hnext : r.next.1 with
    | error e =>
      refine ⟨_, _, rfl, ?_⟩
      rw [Closes, outline, stream_of_next_error hnext]
      rfl
    | ok t =>
      cases t with
      | none =>
        refine ⟨_, _, rfl, fun _ => id, ?_⟩
        rw [outline, outline, stream_of_next_none hnext]
        rfl
      | some t =>
        cases t with
        | nop =>
          obtain ⟨events, after, htake, hcloses⟩ := ih (h.next hnext)
          exact ⟨events, after, htake, hcloses.nop hnext⟩
        | property nameOffset value =>
          dsimp only
          cases hname : r.blob.stringAt nameOffset.toUInt64 with
          | error e =>
            refine ⟨_, _, rfl, ?_⟩
            rw [Closes, outline_of_next hnext, Outline.ofTokens, hname]
            rfl
          | ok name =>
            obtain ⟨events, after, htake, hcloses⟩ := ih (h.next hnext)
            refine ⟨_, after, ?_, hcloses.property hnext hname⟩
            rw [htake]
            rfl
        | beginNode name =>
          refine ⟨_, _, rfl, fun _ => id, ?_⟩
          rw [outline_of_next hnext, outline_of_next hnext]
          rfl
        | endNode =>
          refine ⟨_, _, rfl, fun _ => id, ?_⟩
          rw [outline_of_next hnext, outline_of_next hnext]
          rfl

theorem takeNodes_eq (h : r.Lasts rounds) (hinner : r.Lasts inner) :
    takeNodes inner rounds r = some (r.outline .body) := by
  induction rounds generalizing r with
  | zero => exact absurd h.pos (Nat.lt_irrefl 0)
  | succ rounds ih =>
    rw [takeNodes]
    cases hnext : r.next.1 with
    | error e =>
      rw [outline, stream_of_next_error hnext]
      rfl
    | ok t =>
      cases t with
      | none =>
        rw [outline, stream_of_next_none hnext]
        rfl
      | some t =>
        have hrounds := h.next hnext
        have hrest := hinner.of_next hnext
        cases t with
        | nop =>
          rw [outline_of_next_nop hnext]
          exact ih hrounds hrest
        | endNode =>
          dsimp only
          rw [ih hrounds hrest, outline_of_next hnext]
          rfl
        | property nameOffset value =>
          rw [outline_of_next hnext]
          rfl
        | beginNode name =>
          have houtline : r.outline .body =
              Outline.cons (.startNode name) (r.next.2.outline .header) := by
            rw [outline_of_next hnext]
            rfl
          obtain ⟨events, after, htake, hcloses⟩ := takeProperties_eq hrest
          dsimp only
          rw [htake, houtline]
          cases after with
          | error e =>
            rw [Closes] at hcloses
            rw [hcloses]
            rfl
          | ok r' =>
            dsimp only
            rw [ih (hcloses.1 _ hrounds) (hcloses.1 _ hrest), hcloses.2]
            rfl

/-- The padding before the first node ends at a failure, at the node, or at something else. -/
theorem skipPadding_eq (h : r.Lasts rounds) :
    (∃ ending, skipPadding rounds r = some (.error ending) ∧
      r.outline .start = Outline.stop ending) ∨
    ∃ r', skipPadding rounds r = some (.ok r') ∧ r.outline .start = r'.outline .body ∧
      ∀ rounds, r.Lasts rounds → r'.Lasts rounds := by
  induction rounds generalizing r with
  | zero => exact absurd h.pos (Nat.lt_irrefl 0)
  | succ rounds ih =>
    have hpeek : r.peek = r.next.1 := rfl
    rw [skipPadding, hpeek]
    cases hnext : r.next.1 with
    | error e =>
      refine .inl ⟨_, rfl, ?_⟩
      rw [outline, stream_of_next_error hnext]
      rfl
    | ok t =>
      cases t with
      | none =>
        refine .inl ⟨_, rfl, ?_⟩
        rw [outline, stream_of_next_none hnext]
        rfl
      | some t =>
        cases t with
        | beginNode name =>
          refine .inr ⟨r, rfl, ?_, fun _ => id⟩
          rw [outline_of_next hnext, outline_of_next hnext]
          rfl
        | nop =>
          rw [outline_of_next_nop hnext]
          refine (ih (h.next hnext)).imp_right ?_
          rintro ⟨r', hskip, houtline, hlasts⟩
          exact ⟨r', hskip, houtline, fun rounds h => hlasts rounds (h.of_next hnext)⟩
        | endNode | property =>
          refine .inl ⟨_, rfl, ?_⟩
          rw [outline_of_next hnext]
          rfl

theorem walk_eq (h : r.Lasts rounds) : walk rounds r = some (r.outline .start) := by
  rw [walk]
  rcases skipPadding_eq h with ⟨ending, hskip, houtline⟩ | ⟨r', hskip, houtline, hlasts⟩
  · rw [hskip, houtline]
  · rw [hskip, houtline]
    exact takeNodes_eq (hlasts _ h) (hlasts _ h)

/-- Every loop comes to an end within so many rounds, and the whole walk at the outline. -/
structure Ends (r : Reader) (rounds : Nat) : Prop where
  collect : collect rounds r = some r.stream
  skipPadding : (skipPadding rounds r).isSome
  takeProperties : (takeProperties rounds r).isSome
  takeNodes : takeNodes rounds rounds r = some (r.outline .body)
  walk : walk rounds r = some (r.outline .start)

theorem Lasts.ends (h : r.Lasts rounds) : r.Ends rounds := by
  refine ⟨collect_eq h, ?_, ?_, takeNodes_eq h h, walk_eq h⟩
  · rcases skipPadding_eq h with ⟨_, hskip, -⟩ | ⟨_, hskip, -⟩ <;> rw [hskip] <;> rfl
  · obtain ⟨_, _, htake, -⟩ := takeProperties_eq h
    rw [htake]
    rfl

/-- Only a blob whose structure block is at a multiple of four is let in. -/
theorem mod_four_ofBlob {b : Blob}
    (h : (∃ buffer, Blob.ofBuffer buffer = .ok b) ∨ ∃ memory, Blob.ofMemory memory = .ok b) :
    (ofBlob b).offset.toNat % 4 = 0 := by
  change b.structOffset.toNat % 4 = 0
  rcases h with ⟨buffer, h⟩ | ⟨memory, h⟩
  · exact (Blob.header_of_ofBuffer h).2.2
  · cases memory with
    | none => cases h
    | some memory => exact (Blob.header_of_ofBuffer (Blob.ofBuffer_of_ofMemory h)).2.2

end Reader

open Reader

/-- Reading makes progress, whatever comes of it. A read from a multiple of four wraps nowhere and
moves on unless no word is left, so from the first byte on only so many reads move the offset, and
no loop over the tokens takes more rounds than that and one more. -/
theorem bounded_progress {bytes : Bytes} (hbytes : bytes.length < 2 ^ 63) :
    (∀ legacy (off : UInt64), off.toNat % 4 = 0 →
      readChecked bytes legacy off = some (read bytes legacy off) ∧
        Progresses bytes off (read bytes legacy off).1 (read bytes legacy off).2) ∧
    (∀ flags, moves bytes 0 flags ≤ reach bytes.length / 4) ∧
    (∀ r : Reader, r.blob.bytes = bytes → r.offset.toNat % 4 = 0 →
      ∀ rounds, reach bytes.length / 4 < rounds → r.Ends rounds) ∧
    ∀ b : Blob, b.bytes = bytes →
      ((∃ buffer, Blob.ofBuffer buffer = .ok b) ∨ ∃ memory, Blob.ofMemory memory = .ok b) →
      ∀ rounds, reach bytes.length / 4 < rounds →
        collect rounds (ofBlob b) = some b.tokens ∧ walk rounds (ofBlob b) = some b.outline := by
  have hends : ∀ r : Reader, r.blob.bytes = bytes → r.offset.toNat % 4 = 0 →
      ∀ rounds, reach bytes.length / 4 < rounds → r.Ends rounds := by
    rintro r rfl hoff rounds hrounds
    exact (lasts_of_lt hoff hrounds).ends
  refine ⟨fun legacy off hoff => ⟨readChecked_eq hbytes, progresses_read hbytes legacy hoff⟩,
    fun flags => ?_, hends, ?_⟩
  · have : (0 : UInt64).toNat + 4 * moves bytes 0 flags ≤ reach bytes.length :=
      moves_le hbytes rfl flags (Nat.zero_le _)
    omega
  · intro b hb haccepted rounds hrounds
    have := hends (ofBlob b) hb (mod_four_ofBlob haccepted) rounds hrounds
    exact ⟨this.collect, this.walk⟩

theorem bounded_progress_sample :
    (readChecked Blob.sample.bytes false 56).isSome ∧
      moves Blob.sample.bytes 0 (List.replicate 50 false) ≤ 32 ∧
      ∃ b, Blob.ofBuffer ⟨0x1000, Blob.sample.bytes⟩ = .ok b ∧ b.bytes = Blob.sample.bytes ∧
        collect 33 (ofBlob b) = some b.tokens ∧ walk 33 (ofBlob b) = some b.outline := by
  have haccepted : (Blob.ofBuffer ⟨0x1000, Blob.sample.bytes⟩).toOption.map (·.bytes) =
      some Blob.sample.bytes := by
    decide +kernel
  have hbounded : Blob.sample.bytes.length < 2 ^ 63 := Blob.sample.length_lt_half
  obtain ⟨hreads, hmoves, -, hblobs⟩ := bounded_progress hbounded
  refine ⟨?_, (hmoves _).trans (by decide +kernel), ?_⟩
  · rw [(hreads false 56 (by decide)).1]
    exact Option.isSome_some
  · obtain ⟨b, hb, hbytes⟩ := Build.exists_of_result haccepted
    exact ⟨b, hb, hbytes, hblobs b hbytes (.inl ⟨_, hb⟩) 33 (by decide +kernel)⟩

end Token
end Devicetree
