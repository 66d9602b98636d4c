import Devicetree.Proofs.Passes

/-!
# Packing

Records lie in the block one behind the other, from the root's at its beginning to the last one,
which ends where the measured size does. So paths and values in the block stay apart from each
other. A value behind a record is read back as it was written if half a word can tell where it is,
which is so all over a block of less than 4 GiB.
-/

namespace Devicetree

open Cursor

/-! ## Consecutive intervals -/

/-- The intervals are where a cursor at `n` places records of their lengths. -/
def IsPlaced (n : Nat) (intervals : List Interval) : Prop :=
  intervals.map (fun i => i.offset.toNat) = placeStarts n (intervals.map Interval.length)

/-- The intervals follow each other from the beginning of a block to the end of its records. -/
structure IsPacked (intervals : List Interval) (size : Nat) : Prop where
  placed : IsPlaced 0 intervals
  aligned : ∀ i ∈ intervals, i.offset.toNat % 8 = 0
  disjoint : intervals.Pairwise fun i j => i.stop ≤ j.offset.toNat
  offset_head : ∃ i, intervals.head? = some i ∧ i.offset = 0
  stop_le : ∀ i ∈ intervals, i.stop ≤ size
  size_eq : ∃ i, intervals.getLast? = some i ∧ size = (i.stop + 3) / 4 * 4

namespace IsPlaced

variable {n : Nat} {i : Interval} {intervals : List Interval}

theorem of_cons (h : IsPlaced n (i :: intervals)) :
    i.offset.toNat = recordStart n ∧ IsPlaced i.stop intervals := by
  unfold IsPlaced at h
  simp only [List.map_cons, placeStarts, List.cons.injEq] at h
  obtain ⟨hoff, hrest⟩ := h
  rw [← hoff] at hrest
  exact ⟨hoff, hrest⟩

theorem mem (h : IsPlaced n intervals) (hi : i ∈ intervals) :
    n ≤ i.offset.toNat ∧ i.offset.toNat % 8 = 0 ∧
      i.stop ≤ placeEnd n (intervals.map Interval.length) := by
  induction intervals generalizing n with
  | nil => contradiction
  | cons j rest ih =>
    obtain ⟨hoff, hrest⟩ := h.of_cons
    have hstart := le_recordStart n
    have hend := le_placeEnd j.stop (rest.map Interval.length)
    simp only [List.map_cons, placeEnd, ← hoff]
    change n ≤ _ ∧ _ ∧ i.stop ≤ placeEnd j.stop _
    rcases List.mem_cons.1 hi with rfl | hi
    · refine ⟨by omega, ?_, hend⟩
      rw [hoff, recordStart, Nat.mul_mod_left]
    · obtain ⟨hle, hmod, hstop⟩ := ih hrest hi
      have hj : j.offset.toNat ≤ j.stop := Nat.le_add_right _ _
      exact ⟨by omega, hmod, hstop⟩

theorem pairwise (h : IsPlaced n intervals) :
    intervals.Pairwise fun i j => i.stop ≤ j.offset.toNat := by
  induction intervals generalizing n with
  | nil => exact .nil
  | cons i rest ih =>
    obtain ⟨-, hrest⟩ := h.of_cons
    exact .cons (fun j hj => (hrest.mem hj).1) (ih hrest)

theorem stop_getLast (h : IsPlaced n intervals) (hi : intervals.getLast? = some i) :
    i.stop = placeEnd n (intervals.map Interval.length) := by
  induction intervals generalizing n with
  | nil => contradiction
  | cons j rest ih =>
    obtain ⟨hoff, hrest⟩ := h.of_cons
    simp only [List.map_cons, placeEnd, ← hoff]
    change _ = placeEnd j.stop _
    cases rest with
    | nil =>
      cases hi
      rfl
    | cons k rest => exact ih hrest (by simpa using hi)

theorem offset_concat (h : IsPlaced n (intervals ++ [i])) :
    i.offset.toNat = recordStart (placeEnd n (intervals.map Interval.length)) := by
  unfold IsPlaced at h
  rw [List.map_append, List.map_append, List.map_singleton, List.map_singleton,
    placeStarts_append] at h
  exact List.singleton_inj.1 (List.append_inj' h rfl).2

end IsPlaced

namespace Draft

variable {d : Draft} {c c' : Cursor} {events : List Event} {new : List Interval}

/-- The records that a draft reserves have the lengths that it asks for, one behind the other. -/
theorem Fits.isPlaced (h : d.Fits c) (he : ∀ e ∈ events, e.IsShort)
    (hr : d.reserveAll? c events = some (new, c')) :
    new.map Interval.length = d.demands events ∧ IsPlaced c.offset.toNat new ∧
      c'.offset.toNat = placeEnd c.offset.toNat (d.demands events) := by
  induction events generalizing d c new with
  | nil =>
    cases hr
    exact ⟨rfl, rfl, rfl⟩
  | cons e rest ih =>
    obtain ⟨i, c₁, is, hi, his, rfl⟩ := reserveAll?_cons.1 hr
    have hshort := he e List.mem_cons_self
    obtain ⟨hlengths, hplaced, hend⟩ :=
      ih (h.step hshort hi) (fun e' he' => he e' (List.mem_cons_of_mem _ he')) his
    have hoff := h.offset_lt
    unfold reserve? at hi
    rw [demands]
    cases hd : d.demand e with
    | none =>
      rw [hd] at hi
      cases hi
      exact ⟨hlengths, hplaced, hend⟩
    | some length =>
      rw [hd] at hi
      obtain ⟨⟨i, c₂⟩, hrec, heq⟩ := Option.map_eq_some_iff.1 hi
      cases heq
      have hlen := h.demand_le hshort hd
      obtain ⟨hstart, hstop, -⟩ := toNat_of_reserveRecord (by omega) (by omega) hrec
      have hlength := length_of_reserveRecord hrec
      rw [hstop] at hplaced hend
      refine ⟨?_, ?_, hend⟩
      · simp [hlength, hlengths]
      · unfold IsPlaced at hplaced ⊢
        simp [placeStarts, hlength, hstart, hplaced]

end Draft

/-! ## Values in the block -/

namespace Segment

def stop (s : Segment) : Nat := s.start + s.bytes.length

theorem byte?_add (s : Segment) (i : Nat) : s.byte? (s.start + i) = s.bytes[i]? := by
  rw [byte?, if_pos (Nat.le_add_right _ _), Nat.add_sub_cancel_left]

theorem byte?_eq_none {s : Segment} {i : Nat} (h : s.stop ≤ i) : s.byte? i = none := by
  unfold stop at h
  rw [byte?, if_pos (by omega)]
  exact List.getElem?_eq_none (by omega)

/-- A byte of a segment is not looked for in another one that comes before. -/
theorem findSome?_byte? {segments : List Segment} {s : Segment} {i : Nat} (hs : s ∈ segments)
    (h : segments.Pairwise fun s s' => s.stop ≤ s'.start) (hi : i < s.bytes.length) :
    segments.findSome? (·.byte? (s.start + i)) = some s.bytes[i] := by
  induction segments with
  | nil => contradiction
  | cons s' rest ih =>
    obtain ⟨hbefore, hrest⟩ := List.pairwise_cons.1 h
    rw [List.findSome?_cons]
    rcases List.mem_cons.1 hs with rfl | hs
    · rw [byte?_add, List.getElem?_eq_getElem hi]
    · rw [byte?_eq_none (Nat.le_add_right_of_le (hbefore s hs))]
      exact ih hs hrest

end Segment

def Segment.IsWithin (s : Segment) (i : Interval) : Prop :=
  i.offset.toNat ≤ s.start ∧ s.stop ≤ i.stop

theorem PropertyRecord.isWithin_of_segment? {p : PropertyRecord} {s : Segment}
    (h : p.segment? = some s) : s.IsWithin p.interval := by
  unfold segment? at h
  split at h
  · rename_i hinline
    cases h
    simp only [Segment.IsWithin, Segment.stop, Interval.stop, interval, if_pos hinline]
    omega
  · contradiction

namespace NodeRecord

variable {r : NodeRecord} {s : Segment}

theorem isWithin_path (r : NodeRecord) :
    Segment.IsWithin ⟨r.offset.toNat + nodeRecordSize, r.path⟩ r.interval := by
  simp only [Segment.IsWithin, Segment.stop, Interval.stop, interval]
  omega

theorem exists_isWithin (h : s ∈ r.segments) : ∃ i ∈ r.intervals, s.IsWithin i := by
  rcases List.mem_cons.1 h with rfl | h
  · exact ⟨_, List.mem_cons_self, r.isWithin_path⟩
  · obtain ⟨p, hp, hs⟩ := List.mem_filterMap.1 h
    exact ⟨p.interval, List.mem_cons_of_mem _ (List.mem_map_of_mem hp),
      PropertyRecord.isWithin_of_segment? hs⟩

theorem pairwise_segments (h : r.intervals.Pairwise fun i j => i.stop ≤ j.offset.toNat) :
    r.segments.Pairwise fun s s' => s.stop ≤ s'.start := by
  obtain ⟨hpath, hproperties⟩ := List.pairwise_cons.1 h
  refine .cons ?_ ((List.pairwise_map.1 hproperties).filterMap _ ?_)
  · intro s hs
    obtain ⟨p, hp, hs⟩ := List.mem_filterMap.1 hs
    have hafter := hpath p.interval (List.mem_map_of_mem hp)
    exact (r.isWithin_path.2.trans hafter).trans (PropertyRecord.isWithin_of_segment? hs).1
  · intro p q hpq s hs s' hs'
    exact ((PropertyRecord.isWithin_of_segment? hs).2.trans hpq).trans
      (PropertyRecord.isWithin_of_segment? hs').1

end NodeRecord

theorem pairwise_segments {records : List NodeRecord}
    (h : (records.flatMap NodeRecord.intervals).Pairwise fun i j => i.stop ≤ j.offset.toNat) :
    (records.flatMap NodeRecord.segments).Pairwise fun s s' => s.stop ≤ s'.start := by
  obtain ⟨hown, hother⟩ := List.pairwise_flatMap.1 h
  refine List.pairwise_flatMap.2 ⟨fun r hr => NodeRecord.pairwise_segments (hown r hr), ?_⟩
  refine hother.imp fun hbefore s hs s' hs' => ?_
  obtain ⟨i, hi, hwithin⟩ := NodeRecord.exists_isWithin hs
  obtain ⟨j, hj, hwithin'⟩ := NodeRecord.exists_isWithin hs'
  exact (hwithin.2.trans (hbefore i hi j hj)).trans hwithin'.1

namespace PropertyRecord

variable {p : PropertyRecord}

/-- Half a word is enough for the offset of a value that ends below 4 GiB. -/
theorem toNat_valueOffset (hstop : p.interval.stop < 2 ^ 32) :
    p.valueOffset.toNat = p.offset.toNat + propertyRecordSize := by
  rw [valueOffset, UInt32.toNat_ofNat']
  simp only [Interval.stop, interval] at hstop
  split at hstop <;> omega

theorem toNat_valueLength (hstop : p.interval.stop < 2 ^ 32) (hinline : p.isInline = true) :
    p.valueLength.toNat = p.value.length := by
  rw [valueLength, UInt32.toNat_ofNat']
  simp only [Interval.stop, interval, if_pos hinline] at hstop
  omega

end PropertyRecord

namespace Tree

def ReadsBack (t : Tree) : Prop := ∀ r ∈ t.records, ∀ q ∈ r.properties, t.read q = q.value

/-- A record that tells where its value is reads it back. -/
theorem readsBack_of_stop_lt {t : Tree}
    (hdisjoint : (t.records.flatMap NodeRecord.intervals).Pairwise
      fun i j => i.stop ≤ j.offset.toNat)
    (hstop : ∀ i ∈ t.records.flatMap NodeRecord.intervals, i.stop < 2 ^ 32) : t.ReadsBack := by
  intro r hr q hq
  cases hinline : q.isInline with
  | false => exact t.read_of_isInline_eq_false hinline
  | true =>
    have hinterval : q.interval ∈ t.records.flatMap NodeRecord.intervals :=
      List.mem_flatMap.2 ⟨r, hr, List.mem_cons_of_mem _ (List.mem_map_of_mem hq)⟩
    have hsegment : q.segment? = some ⟨q.offset.toNat + propertyRecordSize, q.value⟩ :=
      if_pos hinline
    have hmem : ⟨q.offset.toNat + propertyRecordSize, q.value⟩ ∈ t.segments :=
      List.mem_flatMap.2
        ⟨r, hr, List.mem_cons_of_mem _ (List.mem_filterMap.2 ⟨q, hq, hsegment⟩)⟩
    have hlt := hstop _ hinterval
    rw [read, if_pos hinline, slice, PropertyRecord.toNat_valueOffset hlt,
      PropertyRecord.toNat_valueLength hlt hinline]
    refine List.ext_getElem (by simp) fun i _ hi => ?_
    rw [List.getElem_map, List.getElem_range,
      Segment.findSome?_byte? hmem (pairwise_segments hdisjoint) hi]
    rfl

theorem ReadsBack.value_eq {n : Node} {q : Property} (h : n.tree.ReadsBack)
    (hq : q ∈ n.properties) : q.value = q.record.value := by
  obtain ⟨r, hr, rfl⟩ := List.mem_map.1 hq
  exact h _ (List.get_mem _ _) r hr

end Tree

namespace Build

variable {b : Blob} {heap : Heap} {size : Nat} {p : Populating}

theorem isPacked_of_isPlaced {intervals : List Interval} {c : Cursor} (hne : intervals ≠ [])
    (hplaced : IsPlaced 0 intervals)
    (hend : c.offset.toNat = placeEnd 0 (intervals.map Interval.length))
    (hlt : c.offset.toNat < 2 ^ 34) : IsPacked intervals (Word.alignUp c.offset 4).toNat := by
  have hsize : (Word.alignUp c.offset 4).toNat = (c.offset.toNat + (2 ^ 2 - 1)) / 2 ^ 2 * 2 ^ 2 :=
    Word.toNat_alignUp rfl ⟨2, rfl⟩ (by
      have : UInt64.size = 2 ^ 64 := rfl
      omega)
  constructor
  case placed => exact hplaced
  case aligned => exact fun i hi => (hplaced.mem hi).2.1
  case disjoint => exact hplaced.pairwise
  case offset_head =>
    obtain ⟨i, rest, rfl⟩ := List.exists_cons_of_ne_nil hne
    exact ⟨i, rfl, UInt32.toNat_inj.1 hplaced.of_cons.1⟩
  case stop_le =>
    intro i hi
    have := (hplaced.mem hi).2.2
    omega
  case size_eq =>
    refine ⟨_, List.getLast?_eq_some_getLast hne, ?_⟩
    rw [hplaced.stop_getLast (List.getLast?_eq_some_getLast hne), ← hend]
    exact hsize

theorem isPlaced_of_populate (hp : populate b size = .ok p) :
    p.intervals.map Interval.length = Draft.start.demands b.outline.events ∧
      IsPlaced 0 p.intervals ∧
      p.cursor.offset.toNat = placeEnd 0 (Draft.start.demands b.outline.events) ∧
      p.cursor.offset.toNat < 2 ^ 34 := by
  obtain ⟨hrun, hending⟩ := populate_eq_ok hp
  obtain ⟨-, ⟨new, hnew, hintervals, -⟩, -⟩ := Populating.run_eq_ok
    (fun _ => startsWithNode_of_complete hending (List.append_nil _).symm) hrun
  obtain rfl : p.intervals = new := hintervals
  have hshort : ∀ e ∈ b.outline.events, e.IsShort := fun e he => Blob.isShort_of_mem_outline he
  obtain ⟨hlengths, hplaced, hend⟩ := Draft.fits_start.isPlaced hshort hnew
  obtain ⟨hfits, -, -⟩ := Draft.fits_start.reserveAll hshort hnew
  exact ⟨hlengths, hplaced, hend, hfits.offset_lt⟩

/-- What the passes reserve fills the measured size. -/
theorem isPacked_of_populate (hm : (measure b heap).2 = .ok size)
    (hp : populate b size = .ok p) : IsPacked p.intervals size := by
  obtain ⟨p', hp', hsize, -, hne, -⟩ := populate_of_measure hm
  obtain rfl := Except.ok.inj (hp.symm.trans hp')
  obtain ⟨hlengths, hplaced, hend, hlt⟩ := isPlaced_of_populate hp
  have hne' : p.intervals ≠ [] := by
    obtain ⟨r, rest, hrecords⟩ := List.exists_cons_of_ne_nil hne
    rw [Populating.intervals, hrecords, List.flatMap_cons, NodeRecord.intervals]
    simp
  rw [← hlengths] at hend
  exact hsize ▸ isPacked_of_isPlaced hne' hplaced hend hlt

section ReadsBack

variable {t : Tree}

theorem readsBack_of_placeEnd (h : (build b heap).result = .ok t)
    (hend : placeEnd 0 (Draft.start.demands b.outline.events) < 2 ^ 32) : t.ReadsBack := by
  obtain ⟨p, hp, -, -, -, hrecords⟩ := populate_of_build h
  obtain ⟨hlengths, hplaced, -⟩ := isPlaced_of_populate hp
  rw [← hlengths] at hend
  rw [Populating.intervals, ← hrecords] at hplaced hend
  exact Tree.readsBack_of_stop_lt hplaced.pairwise fun i hi =>
    Nat.lt_of_le_of_lt (hplaced.mem hi).2.2 hend

theorem readsBack_of_build (h : (build b heap).result = .ok t) (hsize : t.size < 2 ^ 32) :
    t.ReadsBack := by
  obtain ⟨p, hp, hm, -, -, hrecords⟩ := populate_of_build h
  have hpacked := isPacked_of_populate hm hp
  rw [Populating.intervals, ← hrecords] at hpacked
  exact Tree.readsBack_of_stop_lt hpacked.disjoint fun i hi =>
    Nat.lt_of_le_of_lt (hpacked.stop_le i hi) hsize

end ReadsBack
end Build
end Devicetree
