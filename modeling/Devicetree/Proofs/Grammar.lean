import Devicetree.Proofs.Nesting
import Devicetree.Proofs.Passes

/-!
# The grammar of trees

Which token streams make a tree. Padding aside, a stream starts with a node, and each property
stands behind the start of a node or another property; nothing is asked of the ends of nodes. A
build without want of memory or addresses succeeds on exactly the blobs whose tokens are such a
stream, with names that can be looked up.
-/

namespace Devicetree
namespace Token

def allowsProperty : Token → Bool
  | .beginNode _ | .property _ _ => true
  | .endNode | .nop => false

/-- The nearest token before the one at `k` that is not padding. -/
def preceding (T : List Token) (k : Nat) : Option Token := (T.take k).reverse.find? (· ≠ .nop)

/-- A property at `k` stands among those of a node, and its name can be looked up. -/
def Admits (nameAt : UInt32 → Except Error Bytes) (T : List Token) (k : Nat) : Prop :=
  ∀ nameOffset value, T[k]? = some (.property nameOffset value) →
    (∃ t, preceding T k = some t ∧ t.allowsProperty) ∧ ∃ name, nameAt nameOffset = .ok name

/-- The tokens make a tree, with the given names. -/
structure Stream.Grammatical (nameAt : UInt32 → Except Error Bytes) (s : Stream) : Prop where
  /-- They were read up to the end token. -/
  outcome : s.outcome = .ok ()
  first : ∃ name, s.tokens.find? (· ≠ .nop) = some (.beginNode name)
  preceding : ∀ k nameOffset value, s.tokens[k]? = some (.property nameOffset value) →
    ∃ t, preceding s.tokens k = some t ∧ t.allowsProperty
  named : ∀ nameOffset value, .property nameOffset value ∈ s.tokens →
    ∃ name, nameAt nameOffset = .ok name

/-- Padding aside, the stream starts with a token other than the start of a node, be it the end
token. -/
def Stream.StartsEmpty (s : Stream) : Prop :=
  (∃ t, s.tokens.find? (· ≠ .nop) = some t ∧ t.isBegin = false) ∨
    s.tokens.find? (· ≠ .nop) = none ∧ s.outcome = .ok ()

variable {T rest : List Token} {k : Nat} {t : Token} {nameAt : UInt32 → Except Error Bytes}

theorem preceding_succ (ht : T[k]? = some t) :
    preceding T (k + 1) = if t = .nop then preceding T k else some t := by
  unfold preceding
  rw [List.take_add_one, ht, Option.toList_some, List.reverse_append, List.reverse_singleton,
    List.singleton_append, List.find?_cons]
  by_cases h : t = .nop <;> simp [h]

theorem admits_from_iff :
    (∀ j ≥ k, Admits nameAt T j) ↔ Admits nameAt T k ∧ ∀ j ≥ k + 1, Admits nameAt T j := by
  constructor
  · exact fun h => ⟨h k (Nat.le_refl k), fun j hj => h j (Nat.le_of_succ_le hj)⟩
  · rintro ⟨hk, h⟩ j hj
    rcases Nat.eq_or_lt_of_le hj with rfl | hj
    · exact hk
    · exact h j hj

theorem admits_of_drop_eq_nil (h : T.drop k = []) : ∀ j ≥ k, Admits nameAt T j := by
  intro j hj nameOffset value hproperty
  have hlt := (List.getElem?_eq_some_iff.1 hproperty).1
  have hle := List.drop_eq_nil_iff.1 h
  omega

theorem admits_of_ne (ht : T[k]? = some t)
    (h : ∀ nameOffset value, t ≠ .property nameOffset value) : Admits nameAt T k := by
  intro nameOffset value hk
  exact absurd (Option.some.inj (ht.symm.trans hk)) (h nameOffset value)

end Token

namespace Outline

open Token

def Place.behind : Option Token → Place
  | none | some .nop => .start
  | some (.beginNode _) | some (.property _ _) => .header
  | some .endNode => .body

variable {nameAt : UInt32 → Except Error Bytes} {outcome : Except Error Unit} {place : Place}
  {T tokens : List Token} {k : Nat} {t : Token}

theorem behind_eq_header_iff {latest : Option Token} :
    Place.behind latest = .header ↔ ∃ t, latest = some t ∧ t.allowsProperty := by
  cases latest with
  | none => simp [Place.behind]
  | some t => cases t <;> simp [Place.behind, allowsProperty]

theorem behind_preceding_succ (ht : T[k]? = some t) (hnop : t ≠ .nop) :
    Place.behind (preceding T (k + 1)) = Place.behind (some t) := by
  rw [preceding_succ ht, if_neg hnop]

/-- An outline from some token on is complete if reading ended well, the outline has a first node
at last, and the properties still to come are well placed and named. -/
theorem ending_eq_complete_iff (hplace : Place.behind (preceding T k) = place) :
    (ofTokens nameAt outcome place (T.drop k)).ending = .complete ↔
      outcome = .ok () ∧
        (place = .start → ∃ name, (T.drop k).find? (· ≠ .nop) = some (.beginNode name)) ∧
        ∀ j ≥ k, Admits nameAt T j := by
  generalize htokens : T.drop k = tokens
  fun_induction ofTokens nameAt outcome place tokens generalizing k
  case case1 houtcome => simp [stop, houtcome]
  case case2 => simp [stop]
  case case3 houtcome =>
    have hrest : ∀ j ≥ k, Admits nameAt T j := admits_of_drop_eq_nil htokens
    simpa [stop, cons, houtcome] using hrest
  case case4 houtcome =>
    have hrest : ∀ j ≥ k, Admits nameAt T j := admits_of_drop_eq_nil htokens
    simpa [stop, houtcome] using hrest
  case case5 place rest ih =>
    obtain ⟨ht, hrest, -⟩ := of_drop_eq_cons htokens
    have hsame : Place.behind (preceding T (k + 1)) = place := by
      rw [preceding_succ ht, if_pos rfl, hplace]
    rw [ih hsame hrest, admits_from_iff (k := k)]
    simp [admits_of_ne ht (by simp)]
  case case6 rest ih | case11 rest ih | case12 rest ih | case14 rest ih | case15 rest ih =>
    obtain ⟨ht, hrest, -⟩ := of_drop_eq_cons htokens
    have hnext := ih (behind_preceding_succ ht (by simp)) hrest
    simp only [cons, hnext, admits_from_iff (k := k), admits_of_ne ht (by simp)]
    simp
  case case7 | case8 => simp [stop]
  case case9 nameOffset value rest e hat =>
    obtain ⟨ht, -, -⟩ := of_drop_eq_cons htokens
    have hnot : ¬ Admits nameAt T k := by
      intro h
      obtain ⟨-, name, hname⟩ := h nameOffset value ht
      cases hname.symm.trans hat
    simp only [stop, admits_from_iff (k := k), hnot]
    simp
  case case10 nameOffset value rest name hat ih =>
    obtain ⟨ht, hrest, -⟩ := of_drop_eq_cons htokens
    have hnext := ih (behind_preceding_succ ht (by simp)) hrest
    have hadmits : Admits nameAt T k := by
      intro nameOffset' value' ht'
      cases ht.symm.trans ht'
      exact ⟨behind_eq_header_iff.1 hplace, name, hat⟩
    simp only [cons, hnext, admits_from_iff (k := k), hadmits]
    simp
  case case13 nameOffset value rest =>
    obtain ⟨ht, -, -⟩ := of_drop_eq_cons htokens
    have hnot : ¬ Admits nameAt T k := by
      intro h
      have hheader := behind_eq_header_iff.2 (h nameOffset value ht).1
      rw [hplace] at hheader
      contradiction
    simp only [stop, admits_from_iff (k := k), hnot]
    simp

theorem ending_eq_complete_iff_grammatical {s : Stream} :
    (ofTokens nameAt s.outcome .start s.tokens).ending = .complete ↔ s.Grammatical nameAt := by
  have hiff : (ofTokens nameAt s.outcome .start (s.tokens.drop 0)).ending = .complete ↔ _ :=
    ending_eq_complete_iff rfl
  rw [List.drop_zero] at hiff
  rw [hiff]
  constructor
  · rintro ⟨houtcome, hfirst, hadmits⟩
    refine ⟨houtcome, hfirst rfl, fun k nameOffset value hk => ?_, fun nameOffset value hmem => ?_⟩
    · exact (hadmits k (Nat.zero_le k) nameOffset value hk).1
    · obtain ⟨k, hk⟩ := List.mem_iff_getElem?.1 hmem
      exact (hadmits k (Nat.zero_le k) nameOffset value hk).2
  · intro h
    refine ⟨h.outcome, fun _ => h.first, fun k _ nameOffset value hk => ?_⟩
    exact ⟨h.preceding k nameOffset value hk, h.named nameOffset value (List.mem_of_getElem? hk)⟩

theorem ending_ne_empty (hplace : place ≠ .start) :
    (ofTokens nameAt outcome place tokens).ending ≠ .empty := by
  fun_induction ofTokens nameAt outcome place tokens <;> simp_all [stop, cons]

theorem ending_eq_empty_iff_startsEmpty :
    (ofTokens nameAt outcome .start tokens).ending = .empty ↔
      Stream.StartsEmpty ⟨tokens, outcome⟩ := by
  unfold Stream.StartsEmpty
  induction tokens with
  | nil => cases outcome <;> simp [ofTokens, stop]
  | cons t rest ih =>
    cases t with
    | beginNode name =>
      have hheader : (ofTokens nameAt outcome .header rest).ending ≠ .empty :=
        ending_ne_empty (by simp)
      simpa [ofTokens, cons, isBegin] using hheader
    | endNode => simp [ofTokens, stop, isBegin]
    | property nameOffset value => simp [ofTokens, stop, isBegin]
    | nop => simpa [ofTokens] using ih

end Outline

namespace Build

variable {b : Blob} {heap : Heap}

/-- If neither memory nor addresses run out, the outline alone decides how a build ends. -/
theorem build_of_grants (hstarts : ∀ s ∈ b.recordStarts, s < 2 ^ 32)
    (hgrants : ∀ i, heap.grants i = true) :
    (b.outline.ending = .complete → ∃ t l, (build b heap).result = .ok t ∧
      (layout b heap).2 = .ok l) ∧
    ∀ f, Fault.ofEnding? b.outline.ending = some f →
      (build b heap).result = .error f.error ∧ (layout b heap).2 = .error f := by
  obtain ⟨new, c, hnew⟩ := b.exists_reserveAll hstarts
  obtain ⟨hm, hserves⟩ := measure_of_reserveAll hnew fun i _ => hgrants (heap.requests + i)
  constructor
  · intro hcomplete
    rw [hcomplete] at hm
    have hg : (measure b heap).1.grants (measure b heap).1.requests = true := by
      rw [hserves.grants_eq]
      exact hgrants _
    obtain ⟨t, ht, -⟩ := exists_build_of_measure hm hg
    exact ⟨t, _, ht, layout_of_measure hm⟩
  · intro f hf
    rw [hf] at hm
    exact ⟨(build_of_measure_error hm).1, layout_of_measure_error hm⟩

/-- If neither memory nor addresses run out, the blobs whose tokens make a tree are built, blobs
that start with something else are empty, and all others are malformed. Looking for the layout
alone ends in the same way. -/
theorem build_iff_grammatical (b : Blob) (heap other : Heap)
    (hstarts : ∀ s ∈ b.recordStarts, s < 2 ^ 32)
    (hheap : ∀ i, heap.grants i = true) (hother : ∀ i, other.grants i = true) :
    ((∃ t, (build b heap).result = .ok t) ↔
      b.tokens.Grammatical fun off => b.stringAt off.toUInt64) ∧
    ((build b heap).result = .error .noNodes ↔ b.tokens.StartsEmpty) ∧
    ((build b heap).result = .error .malformed ↔
      ¬ b.tokens.Grammatical (fun off => b.stringAt off.toUInt64) ∧ ¬ b.tokens.StartsEmpty) ∧
    ((∃ l, (layout b other).2 = .ok l) ↔ ∃ t, (build b heap).result = .ok t) ∧
    ∀ e, (∃ f, (layout b other).2 = .error f ∧ f.error = e) ↔ (build b heap).result = .error e := by
  obtain ⟨hbuilt, hstopped⟩ := build_of_grants hstarts hheap
  obtain ⟨hlaid, hunlaid⟩ := build_of_grants hstarts hother
  have hgrammatical : b.outline.ending = .complete ↔
      b.tokens.Grammatical fun off => b.stringAt off.toUInt64 :=
    Outline.ending_eq_complete_iff_grammatical
  have hempty : b.outline.ending = .empty ↔ b.tokens.StartsEmpty :=
    Outline.ending_eq_empty_iff_startsEmpty
  rw [← hgrammatical, ← hempty]
  cases hending : b.outline.ending with
  | complete =>
    obtain ⟨t, -, ht, -⟩ := hbuilt hending
    obtain ⟨-, l, -, hl⟩ := hlaid hending
    simp [ht, hl]
  | empty =>
    obtain ⟨hb, -⟩ := hstopped (.blob .noNodes) (by rw [hending, Fault.ofEnding?])
    obtain ⟨-, hl⟩ := hunlaid (.blob .noNodes) (by rw [hending, Fault.ofEnding?])
    simp [hb, hl, Fault.error]
  | failed e =>
    obtain rfl := Blob.eq_malformed_of_outline hending
    obtain ⟨hb, -⟩ := hstopped (.blob .malformed) (by rw [hending, Fault.ofEnding?])
    obtain ⟨-, hl⟩ := hunlaid (.blob .malformed) (by rw [hending, Fault.ofEnding?])
    simp [hb, hl, Fault.error]

theorem build_iff_grammatical_sample :
    (∀ s ∈ Blob.sample.recordStarts, s < 2 ^ 32) ∧
      Blob.sample.tokens.Grammatical (fun off => Blob.sample.stringAt off.toUInt64) ∧
      ∃ l, (layout .sample (.fresh 1)).2 = .ok l := by
  have hstarts : ∀ s ∈ Blob.sample.recordStarts, s < 2 ^ 32 := by decide +kernel
  obtain ⟨t, ht, -⟩ := exists_build_sample
  obtain ⟨hbuilt, -, -, hlaid, -⟩ :=
    build_iff_grammatical .sample (.fresh 0) (.fresh 1) hstarts (fun _ => rfl) fun _ => rfl
  exact ⟨hstarts, hbuilt.1 ⟨t, ht⟩, hlaid.2 ⟨t, ht⟩⟩

end Build
end Devicetree
