import Devicetree.Proofs.Draft
import Devicetree.Proofs.Placement

/-!
# Reservations

The length of a record depends only on the draft so far, so the events of an outline determine
every reservation. Both passes make these and no others. The offsets do not wrap: a record that
was granted starts below half a word, and no path is longer than what has been reserved for it.
-/

namespace Devicetree

namespace Path

theorem length_join_le (parent : Option Bytes) (name : Bytes) :
    (join parent name).length ≤ (parent.getD []).length + name.length + 1 := by
  unfold join
  split
  · omega
  · cases parent with
    | none => simp [root]
    | some path =>
      by_cases h : path = root
      · simp [h]
      · simp [h]
        omega

theorem length_shortName_le (path : Bytes) : (shortName path).length ≤ path.length := by
  have htail := (List.takeWhile_sublist (· ≠ unitMark) (l := unitName path)).length_le
  have hunit := (List.takeWhile_sublist (· ≠ slash) (l := path.reverse)).length_le
  unfold shortName
  unfold unitName at htail ⊢
  simp only [List.length_reverse] at htail hunit
  omega

end Path

/-- Names come from a blob, and a blob is shorter than half a word can count. -/
def Event.IsShort : Event → Prop
  | .startNode name => name.length < 2 ^ 32
  | .property _ _ | .endProperties | .endNode => True

namespace Draft

/-- The length of the record that an event asks for, if it asks for one. -/
def demand (d : Draft) : Event → Option Nat
  | .startNode name => some (nodeRecordSize + (Path.join d.path? name).length)
  | .property _ _ => some propertyRecordSize
  | .endProperties => if d.isNamed then none else some (propertyRecordSize + d.ownName.length)
  | .endNode => none

def demands (d : Draft) : List Event → List Nat
  | [] => []
  | e :: rest => (d.demand e).toList ++ (d.step e).demands rest

def reserve? (d : Draft) (c : Cursor) (e : Event) : Option (List Interval × Cursor) :=
  match d.demand e with
  | none => some ([], c)
  | some length => (c.reserveRecord length).map fun (i, c) => ([i], c)

def reserveAll? (d : Draft) (c : Cursor) : List Event → Option (List Interval × Cursor)
  | [] => some ([], c)
  | e :: rest =>
    match d.reserve? c e with
    | none => none
    | some (new, c) => ((d.step e).reserveAll? c rest).map fun (later, c) => (new ++ later, c)

/-- The offsets so far are far from wrapping. -/
structure Fits (d : Draft) (c : Cursor) : Prop where
  offset_lt : c.offset.toNat < 2 ^ 34
  path_le : ∀ n ∈ d.nodes, n.path.length ≤ c.offset.toNat

theorem fits_start : start.Fits Cursor.start := ⟨by decide, by simp [start]⟩

variable {d : Draft} {c c' : Cursor} {e : Event} {events : List Event} {new : List Interval}
  {length : Nat}

theorem Fits.path?_le (h : d.Fits c) : (d.path?.getD []).length ≤ c.offset.toNat := by
  unfold path?
  cases hn : d.current.bind fun i => d.nodes[i]? with
  | none => simp
  | some n =>
    obtain ⟨i, -, hi⟩ := Option.bind_eq_some_iff.1 hn
    exact h.path_le n (List.mem_of_getElem? hi)

theorem Fits.demand_le (h : d.Fits c) (he : e.IsShort) (hd : d.demand e = some length) :
    length ≤ c.offset.toNat + 2 ^ 32 + 112 := by
  have hpath := h.path?_le
  cases e with
  | startNode name =>
    cases hd
    have hjoin := Path.length_join_le d.path? name
    have hname : name.length < 2 ^ 32 := he
    unfold nodeRecordSize
    omega
  | property name value =>
    cases hd
    unfold propertyRecordSize
    omega
  | endProperties =>
    simp only [demand] at hd
    split at hd
    · contradiction
    · cases hd
      have hshort := Path.length_shortName_le (d.path?.getD [])
      simp only [propertyRecordSize, ownName, List.length_append, List.length_singleton]
      omega
  | endNode => contradiction

theorem path_le_of_mem_attach {nodes : List DraftNode} {p : Bytes × Bytes} {bound : Nat}
    (h : ∀ n ∈ nodes, n.path.length ≤ bound) : ∀ n ∈ attach nodes p, n.path.length ≤ bound := by
  intro n hn
  obtain ⟨i, hi⟩ := List.mem_iff_getElem?.1 hn
  unfold attach at hi
  rw [List.getElem?_modify] at hi
  obtain ⟨m, hm, rfl⟩ := Option.map_eq_some_iff.1 hi
  have := h m (List.mem_of_getElem? hm)
  split <;> exact this

theorem Fits.reserve (h : d.Fits c) (he : e.IsShort) (hr : d.reserve? c e = some (new, c')) :
    c.offset.toNat ≤ c'.offset.toNat ∧ c'.offset.toNat < 2 ^ 34 ∧
      (∀ i ∈ new, c.offset.toNat ≤ i.offset.toNat ∧ i.stop ≤ c'.offset.toNat) ∧
      ∀ length, d.demand e = some length → length ≤ c'.offset.toNat := by
  have hoff := h.offset_lt
  unfold reserve? at hr
  split at hr
  · rename_i hd
    cases hr
    exact ⟨Nat.le_refl _, hoff, by simp, by simp [hd]⟩
  · rename_i length hd
    obtain ⟨⟨i, c''⟩, hrec, heq⟩ := Option.map_eq_some_iff.1 hr
    cases heq
    have hlen := h.demand_le he hd
    obtain ⟨hi, hc', hlt⟩ := Cursor.toNat_of_reserveRecord (by omega) (by omega) hrec
    have hil := Cursor.length_of_reserveRecord hrec
    have hstart := le_recordStart c.offset.toNat
    refine ⟨by omega, by omega, ?_, ?_⟩
    · intro j hj
      rw [List.mem_singleton] at hj
      subst hj
      unfold Interval.stop
      omega
    · intro length' hd'
      rw [hd] at hd'
      cases hd'
      omega

theorem Fits.step (h : d.Fits c) (he : e.IsShort) (hr : d.reserve? c e = some (new, c')) :
    (d.step e).Fits c' := by
  obtain ⟨hle, hlt, -, hdemand⟩ := h.reserve he hr
  refine ⟨hlt, ?_⟩
  have hpath : ∀ n ∈ d.nodes, n.path.length ≤ c'.offset.toNat := fun n hn =>
    Nat.le_trans (h.path_le n hn) hle
  cases e with
  | startNode name =>
    intro n hn
    rcases List.mem_append.1 hn with hn | hn
    · exact hpath n hn
    · rw [List.mem_singleton.1 hn]
      have := hdemand _ rfl
      exact Nat.le_trans (Nat.le_add_left _ _) this
  | property name value => exact path_le_of_mem_attach hpath
  | endProperties =>
    simp only [Draft.step]
    split
    · exact hpath
    · exact path_le_of_mem_attach hpath
  | endNode => exact hpath

theorem reserveAll?_cons :
    d.reserveAll? c (e :: events) = some (new, c') ↔
      ∃ i c₁ is, d.reserve? c e = some (i, c₁) ∧
        (d.step e).reserveAll? c₁ events = some (is, c') ∧ new = i ++ is := by
  rw [reserveAll?]
  constructor
  · intro h
    split at h
    · contradiction
    · rename_i i c₁ hi
      obtain ⟨⟨is, c''⟩, his, heq⟩ := Option.map_eq_some_iff.1 h
      cases heq
      exact ⟨i, c₁, is, hi, his, rfl⟩
  · rintro ⟨i, c₁, is, hi, his, rfl⟩
    rw [hi]
    simp [his]

theorem reserveAll?_append {first rest : List Event} :
    d.reserveAll? c (first ++ rest) = some (new, c') ↔
      ∃ is c₁ js, d.reserveAll? c first = some (is, c₁) ∧
        (d.run first).reserveAll? c₁ rest = some (js, c') ∧ new = is ++ js := by
  induction first generalizing d c new with
  | nil =>
    constructor
    · exact fun h => ⟨[], c, new, rfl, h, rfl⟩
    · rintro ⟨is, c₁, js, his, hjs, rfl⟩
      cases his
      exact hjs
  | cons e first ih =>
    rw [List.cons_append, reserveAll?_cons]
    constructor
    · rintro ⟨i, c₁, all, hi, hall, rfl⟩
      obtain ⟨is, c₂, js, his, hjs, rfl⟩ := ih.1 hall
      exact ⟨i ++ is, c₂, js, reserveAll?_cons.2 ⟨i, c₁, is, hi, his, rfl⟩, hjs, by simp⟩
    · rintro ⟨all, c₂, js, hall, hjs, rfl⟩
      obtain ⟨i, c₁, is, hi, his, rfl⟩ := reserveAll?_cons.1 hall
      exact ⟨i, c₁, is ++ js, hi, ih.2 ⟨is, c₂, js, his, hjs, rfl⟩, by simp⟩

/-- Every record of a run lies between the cursors before and after it. -/
theorem Fits.reserveAll (h : d.Fits c) (he : ∀ e ∈ events, e.IsShort)
    (hr : d.reserveAll? c events = some (new, c')) :
    (d.run events).Fits c' ∧ c.offset.toNat ≤ c'.offset.toNat ∧
      ∀ i ∈ new, c.offset.toNat ≤ i.offset.toNat ∧ i.stop ≤ c'.offset.toNat := by
  induction events generalizing d c new with
  | nil =>
    cases hr
    exact ⟨h, Nat.le_refl _, by simp⟩
  | cons e rest ih =>
    obtain ⟨i, c₁, is, hi, his, rfl⟩ := reserveAll?_cons.1 hr
    have hshort := he e List.mem_cons_self
    obtain ⟨hle, -, hnew, -⟩ := h.reserve hshort hi
    obtain ⟨hfits, hle', hlater⟩ :=
      ih (h.step hshort hi) (fun e' he' => he e' (List.mem_cons_of_mem _ he')) his
    refine ⟨hfits, Nat.le_trans hle hle', ?_⟩
    intro j hj
    rcases List.mem_append.1 hj with hj | hj
    · exact ⟨(hnew j hj).1, Nat.le_trans (hnew j hj).2 hle'⟩
    · exact ⟨Nat.le_trans hle (hlater j hj).1, (hlater j hj).2⟩

theorem Fits.exists_reserveAll (h : d.Fits c) (he : ∀ e ∈ events, e.IsShort)
    (hstarts : ∀ s ∈ Cursor.placeStarts c.offset.toNat (d.demands events), s < 2 ^ 32) :
    ∃ is c', d.reserveAll? c events = some (is, c') ∧
      c'.offset.toNat = Cursor.placeEnd c.offset.toNat (d.demands events) := by
  induction events generalizing d c with
  | nil => exact ⟨[], c, rfl, rfl⟩
  | cons e rest ih =>
    have hshort := he e List.mem_cons_self
    have hrest := fun e' he' => he e' (List.mem_cons_of_mem _ he')
    simp only [demands] at hstarts ⊢
    cases hd : d.demand e with
    | none =>
      have hr : d.reserve? c e = some ([], c) := by simp [reserve?, hd]
      simp only [hd, Option.toList_none, List.nil_append] at hstarts ⊢
      obtain ⟨is, c', his, hc'⟩ := ih (h.step hshort hr) hrest hstarts
      exact ⟨is, c', reserveAll?_cons.2 ⟨[], c, is, hr, his, rfl⟩, hc'⟩
    | some length =>
      have hoff := h.offset_lt
      have hlen := h.demand_le hshort hd
      simp only [hd, Option.toList_some, List.singleton_append, Cursor.placeStarts,
        Cursor.placeEnd, List.forall_mem_cons] at hstarts ⊢
      obtain ⟨i, c₁, hi⟩ : ∃ i c₁, c.reserveRecord length = some (i, c₁) :=
        Cursor.exists_reserveRecord (by omega) hstarts.1
      obtain ⟨-, hc₁, -⟩ := Cursor.toNat_of_reserveRecord (by omega) (by omega) hi
      have hr : d.reserve? c e = some ([i], c₁) := by simp [reserve?, hd, hi]
      rw [← hc₁] at hstarts ⊢
      obtain ⟨is, c', his, hc'⟩ := ih (h.step hshort hr) hrest hstarts.2
      exact ⟨i :: is, c', reserveAll?_cons.2 ⟨[i], c₁, is, hr, his, rfl⟩, hc'⟩

end Draft
end Devicetree
