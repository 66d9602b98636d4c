import Devicetree.Proofs.Reservations

/-!
# Outlines of blobs

What holds of every outline that comes from a blob: its names are parts of the blob, and one that
is complete starts with a node.
-/

namespace Devicetree

namespace Token

theorem length_of_readName {bytes name : Bytes} {legacy : Bool} {off stop : UInt64}
    (h : readName bytes legacy off = some (name, stop)) : name.length < bytes.length := by
  obtain ⟨s, hs, heq⟩ := Option.map_eq_some_iff.1 h
  cases heq
  split at hs
  · have := Bytes.length_of_untilNul? hs
    simp only [List.length_drop] at this
    omega
  · have := Bytes.length_of_untilNul? hs
    simp only [List.length_take, List.length_drop] at this
    omega

theorem length_of_read {bytes name : Bytes} {legacy : Bool} {off stop : UInt64}
    (h : read bytes legacy off = (.ok (some (.beginNode name)), stop)) :
    name.length < bytes.length := by
  unfold read at h
  split at h
  · simp at h
  · simp only at h
    repeat' split at h
    all_goals try simp at h
    rename_i name' stop' hname
    obtain ⟨rfl, -⟩ := h
    exact length_of_readName hname

theorem eq_malformed_of_read {bytes : Bytes} {legacy : Bool} {off : UInt64} {e : Error}
    (h : (read bytes legacy off).1 = .error e) : e = .malformed := by
  unfold read at h
  split at h
  · exact (Except.error.inj h).symm
  · simp only at h
    repeat' split at h
    all_goals first | contradiction | exact (Except.error.inj h).symm

theorem Reader.eq_malformed_of_outcome {r : Reader} {e : Error}
    (h : r.stream.outcome = .error e) : e = .malformed := by
  fun_induction Reader.stream r with
  | case1 r t hnext rest ih => exact ih h
  | case2 r hnext => contradiction
  | case3 r e' hnext =>
    cases h
    exact eq_malformed_of_read hnext

theorem Reader.exists_read_of_mem {r : Reader} {t : Token} (h : t ∈ r.stream.tokens) :
    ∃ off stop, read r.blob.bytes r.blob.isLegacy off = (.ok (some t), stop) := by
  fun_induction Reader.stream r with
  | case1 r t' hnext rest ih =>
    rcases List.mem_cons.1 h with rfl | h
    · exact ⟨r.offset, _, Prod.ext hnext rfl⟩
    · exact ih h
  | case2 r hnext => simp at h
  | case3 r e hnext => simp at h

end Token

namespace Outline

variable {nameAt : UInt32 → Except Error Bytes} {outcome : Except Error Unit} {place : Place}
  {tokens : List Token}

theorem mem_of_startNode_mem {name : Bytes}
    (h : Event.startNode name ∈ (ofTokens nameAt outcome place tokens).events) :
    Token.beginNode name ∈ tokens := by
  fun_induction ofTokens nameAt outcome place tokens <;> simp_all [stop, cons] <;> grind

theorem exists_startNode_of_complete
    (h : (ofTokens nameAt outcome .start tokens).ending = .complete) :
    ∃ name rest, (ofTokens nameAt outcome .start tokens).events = .startNode name :: rest := by
  induction tokens with
  | nil => cases outcome <;> simp [ofTokens, stop] at h
  | cons t rest ih =>
    cases t with
    | beginNode name => exact ⟨name, _, rfl⟩
    | endNode => simp [ofTokens, stop] at h
    | property nameOffset value => simp [ofTokens, stop] at h
    | nop => exact ih h

/-- An outline that fails passes on why tokens or a name could not be read. -/
theorem eq_malformed_of_failed {e : Error} (houtcome : ∀ e, outcome = .error e → e = .malformed)
    (hname : ∀ off e, nameAt off = .error e → e = .malformed)
    (h : (ofTokens nameAt outcome place tokens).ending = .failed e) : e = .malformed := by
  fun_induction ofTokens nameAt outcome place tokens
  case case9 hat =>
    cases h
    exact hname _ _ hat
  all_goals simp_all [stop, cons]

end Outline

namespace Blob

theorem eq_malformed_of_stringAt {b : Blob} {off : UInt64} {e : Error}
    (h : b.stringAt off = .error e) : e = .malformed := by
  unfold stringAt at h
  split at h
  · contradiction
  · exact (Except.error.inj h).symm

theorem eq_malformed_of_outline {b : Blob} {e : Error} (h : b.outline.ending = .failed e) :
    e = .malformed :=
  Outline.eq_malformed_of_failed (fun _ he => Token.Reader.eq_malformed_of_outcome he)
    (fun _ _ he => eq_malformed_of_stringAt he) h

theorem isShort_of_mem_outline {b : Blob} {e : Event} (h : e ∈ b.outline.events) :
    e.IsShort := by
  cases e with
  | startNode name =>
    obtain ⟨off, stop, hread⟩ :=
      Token.Reader.exists_read_of_mem (Outline.mem_of_startNode_mem h)
    exact Nat.lt_trans (Token.length_of_read hread) b.length_lt
  | property name value => trivial
  | endProperties => trivial
  | endNode => trivial

/-- The offsets of the records that a pass over the blob asks for, were there no end of offsets. -/
def recordStarts (b : Blob) : List Nat :=
  Cursor.placeStarts 0 (Draft.start.demands b.outline.events)

theorem exists_reserveAll (b : Blob) (hstarts : ∀ s ∈ b.recordStarts, s < 2 ^ 32) :
    ∃ new c, Draft.start.reserveAll? .start b.outline.events = some (new, c) := by
  obtain ⟨new, c, hnew, -⟩ :=
    Draft.fits_start.exists_reserveAll (fun e he => isShort_of_mem_outline he) hstarts
  exact ⟨new, c, hnew⟩

end Blob
end Devicetree
