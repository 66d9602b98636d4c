import Devicetree.Build
import Devicetree.Proofs.Encoding
import Devicetree.Proofs.Measured
import Devicetree.Proofs.Populated
import Mathlib.Data.List.Basic

/-!
# Agreement of the passes

Both passes follow one draft, so after any part of the outline they have made the same
reservations at the same offsets. A blob that was measured can therefore be populated: no record
leaves the measured bytes, the final cursor is the measured one, and the checks at the end of a
build hold.
-/

namespace Devicetree
namespace Build

variable {b : Blob} {heap : Heap} {size : Nat} {first rest : List Event}

theorem startsWithNode_of_complete (h : b.outline.ending = .complete)
    (hsplit : b.outline.events = first ++ rest) : ∀ e ∈ first.head?, e.isStart = true := by
  obtain ⟨name, later, hevents⟩ := Outline.exists_startNode_of_complete h
  intro e he
  cases first with
  | nil => simp at he
  | cons e' first =>
    have hhead : Event.startNode name = e' := by
      have hcons : Event.startNode name :: later = e' :: first ++ rest := hevents ▸ hsplit
      exact (List.cons.inj hcons).1
    cases he
    rw [← hhead]
    rfl

theorem stop_le_of_measure (hm : (measure b heap).2 = .ok size) :
    ∃ new c, Draft.start.reserveAll? .start b.outline.events = some (new, c) ∧
      size = (Word.alignUp c.offset 4).toNat ∧ size < 2 ^ 34 + 4 ∧ ∀ i ∈ new, i.stop ≤ size := by
  obtain ⟨-, ⟨new, c, hnew, rfl⟩, -⟩ := measure_eq_ok_iff.1 hm
  obtain ⟨hfits, -, hstop⟩ :=
    Draft.fits_start.reserveAll (fun e he => Blob.isShort_of_mem_outline he) hnew
  have hoff := hfits.offset_lt
  have hsize : (Word.alignUp c.offset 4).toNat = (c.offset.toNat + (2 ^ 2 - 1)) / 2 ^ 2 * 2 ^ 2 :=
    Word.toNat_alignUp rfl ⟨2, rfl⟩ (by
      have : UInt64.size = 2 ^ 64 := rfl
      omega)
  refine ⟨new, c, hnew, rfl, by omega, ?_⟩
  intro i hi
  have := (hstop i hi).2
  omega

/-- After any part of the outline of a blob that was measured, both passes have made the same
reservations. -/
theorem run_agrees (hm : (measure b heap).2 = .ok size)
    (hsplit : b.outline.events = first ++ rest) :
    (Measuring.start.run heap first).fault = none ∧
      ∃ q, Populating.start.run size first = .ok q ∧
        q.cursor = (Measuring.start.run heap first).last.cursor ∧
        q.intervals = (Measuring.start.run heap first).last.reserved.reverse ∧
        q.nodeCount = Event.startCount first := by
  obtain ⟨hending, -, hgrants⟩ := measure_eq_ok_iff.1 hm
  obtain ⟨new, c, hnew, -, -, hstop⟩ := stop_le_of_measure hm
  have hfault : (Measuring.start.run heap (first ++ rest)).fault = none :=
    Measuring.fault_eq_none_of_reserveAll Measuring.follows_start Draft.fits_start
      (fun e he => Blob.isShort_of_mem_outline (hsplit ▸ he)) (hsplit ▸ hnew) (hsplit ▸ hgrants)
  have hfirst := Measuring.fault_of_run_append hfault
  obtain ⟨-, ⟨now, hnow, hreserved⟩, -⟩ :=
    Measuring.run_of_fault_eq_none Measuring.follows_start hfirst
  obtain ⟨now', c₁, later, hnow', -, rfl⟩ := Draft.reserveAll?_append.1 (hsplit ▸ hnew)
  obtain ⟨rfl, rfl⟩ := Prod.mk.inj (Option.some.inj (hnow.symm.trans hnow'))
  have hstart : Populating.start.records = [] → ∀ e ∈ first.head?, e.isStart = true := fun _ =>
    startsWithNode_of_complete hending hsplit
  have hinside : ∀ i ∈ now, i.stop ≤ size + markSize := by
    intro i hi
    exact Nat.le_trans (hstop i (List.mem_append_left _ hi)) (Nat.le_add_right _ _)
  obtain ⟨q, hq⟩ := Populating.exists_run hstart hnow hinside
  obtain ⟨-, ⟨now'', hnow'', hintervals, -⟩, hcount⟩ := Populating.run_eq_ok hstart hq
  obtain ⟨rfl, hcursor⟩ := Prod.mk.inj (Option.some.inj (hnow.symm.trans hnow''))
  refine ⟨hfirst, q, hq, hcursor.symm, ?_, ?_⟩
  · rw [hintervals, hreserved]
    simp [Populating.start, Populating.intervals, Measuring.start]
  · simpa [Populating.start] using hcount

/-- A blob that was measured is populated into records that pass the final check. -/
theorem populate_of_measure (hm : (measure b heap).2 = .ok size) :
    ∃ p, populate b size = .ok p ∧ (Word.alignUp p.cursor.offset 4).toNat = size ∧
      p.nodeCount = Event.startCount b.outline.events ∧ p.records ≠ [] ∧
      fits size p.records = true := by
  obtain ⟨hending, -, -⟩ := measure_eq_ok_iff.1 hm
  obtain ⟨new, c, hnew, hsize, -, hstop⟩ := stop_le_of_measure hm
  obtain ⟨-, p, hp, -, -, hcount⟩ := run_agrees hm (List.append_nil _).symm
  have hstart : Populating.start.records = [] → ∀ e ∈ b.outline.events.head?, e.isStart = true :=
    fun _ => startsWithNode_of_complete hending (List.append_nil _).symm
  obtain ⟨hdraft, ⟨new', hnew', hintervals, -⟩, -⟩ := Populating.run_eq_ok hstart hp
  obtain ⟨rfl, rfl⟩ := Prod.mk.inj (Option.some.inj (hnew.symm.trans hnew'))
  refine ⟨p, ?_, hsize.symm, hcount, ?_, ?_⟩
  · unfold populate
    dsimp only
    rw [hp, hending]
    rfl
  · obtain ⟨name, later, hevents⟩ := Outline.exists_startNode_of_complete hending
    have hlength := Draft.length_nodes_run Draft.start b.outline.events
    have hone : 0 < Event.startCount b.outline.events := by
      rw [show b.outline.events = .startNode name :: later from hevents, Event.startCount_cons]
      simp [Event.isStart]
    rw [← show p.draft = Draft.start.run b.outline.events from hdraft] at hlength
    intro hnil
    simp [Populating.draft, hnil, Draft.start] at hlength
    omega
  · unfold fits
    rw [show p.records.flatMap NodeRecord.intervals = new from hintervals]
    simpa using hstop

theorem blockLayout_of_measure (hm : (measure b heap).2 = .ok size) :
    blockLayout size = some ⟨size + markSize, recordAlign⟩ := by
  obtain ⟨-, -, -, -, hlt, -⟩ := stop_le_of_measure hm
  have hsize : UInt64.size = 2 ^ 64 := rfl
  unfold blockLayout Layout.of? markSize recordAlign
  rw [if_pos (by omega)]

theorem build_of_measure {heap' : Heap} {block : Block} (hm : (measure b heap).2 = .ok size)
    (ha : (measure b heap).1.allocate ⟨size + markSize, recordAlign⟩ = (heap', some block)) :
    ∃ p t, populate b size = .ok p ∧ (Word.alignUp p.cursor.offset 4).toNat = size ∧
      (build b heap).result = .ok t ∧ (build b heap).heap = heap' ∧ t.blob = b ∧
      t.block = block ∧ t.size = size ∧ t.nodeCount = Event.startCount b.outline.events ∧
      t.records = p.records := by
  obtain ⟨p, hp, hcursor, hcount, hne, hfits⟩ := populate_of_measure hm
  have hverify : verify b heap' block size p =
      .ok ⟨b, block, size, p.nodeCount, p.records, hne, heap'.imprint b p.records⟩ := by
    unfold verify
    rw [dif_pos ⟨hfits, hcursor, hne⟩]
  have hpair : measure b heap = ((measure b heap).1, .ok size) := Prod.ext rfl hm
  have hbuild : (build b heap).result =
        .ok ⟨b, block, size, p.nodeCount, p.records, hne, heap'.imprint b p.records⟩ ∧
      (build b heap).heap = heap' := by
    unfold build
    rw [hpair]
    simp [blockLayout_of_measure hm, ha, finish, hp, hverify]
  exact ⟨p, _, hp, hcursor, hbuild.1, hbuild.2, rfl, rfl, rfl, hcount, rfl⟩

theorem exists_build_of_measure (hm : (measure b heap).2 = .ok size)
    (hg : (measure b heap).1.grants (measure b heap).1.requests = true) :
    ∃ t, (build b heap).result = .ok t ∧ t.nodeCount = Event.startCount b.outline.events := by
  obtain ⟨heap', ha, -⟩ := Heap.allocate_of_grants ⟨size + markSize, recordAlign⟩ hg
  obtain ⟨-, t, -, -, ht, -, -, -, -, hcount, -⟩ := build_of_measure hm ha
  exact ⟨t, ht, hcount⟩

theorem build_of_measure_error {f : Fault} (hm : (measure b heap).2 = .error f) :
    (build b heap).result = .error f.error ∧ (build b heap).heap = (measure b heap).1 := by
  have hpair : measure b heap = ((measure b heap).1, .error f) := Prod.ext rfl hm
  unfold build
  rw [hpair]
  exact ⟨rfl, rfl⟩

theorem build_of_refused {heap' : Heap} (hm : (measure b heap).2 = .ok size)
    (ha : (measure b heap).1.allocate ⟨size + markSize, recordAlign⟩ = (heap', none)) :
    (build b heap).result = .error .outOfMemory ∧ (build b heap).heap = heap' := by
  have hpair : measure b heap = ((measure b heap).1, .ok size) := Prod.ext rfl hm
  unfold build
  rw [hpair]
  simp only [blockLayout_of_measure hm, ha]
  exact ⟨rfl, rfl⟩

theorem populate_of_build {t : Tree} (h : (build b heap).result = .ok t) :
    ∃ p, populate b t.size = .ok p ∧ (measure b heap).2 = .ok t.size ∧ t.blob = b ∧
      t.nodeCount = p.nodeCount ∧ t.records = p.records := by
  unfold build at h
  split at h
  · contradiction
  · rename_i heap₁ size hm
    dsimp only at h
    split at h
    · contradiction
    · split at h
      · contradiction
      · simp only [finish] at h
        split at h
        · contradiction
        · rename_i p hp
          split at h
          · contradiction
          · rename_i t' hverify
            cases h
            unfold verify at hverify
            split at hverify
            · cases hverify
              exact ⟨p, hp, congrArg Prod.snd hm, rfl, rfl, rfl⟩
            · contradiction

theorem allocate_of_build {t : Tree} (h : (build b heap).result = .ok t) :
    (measure b heap).1.allocate ⟨t.size + markSize, recordAlign⟩ =
      ((build b heap).heap, some t.block) := by
  obtain ⟨-, -, hm, -⟩ := populate_of_build h
  cases ha : (measure b heap).1.allocate ⟨t.size + markSize, recordAlign⟩ with
  | mk heap' answer =>
    cases answer with
    | none =>
      rw [(build_of_refused hm ha).1] at h
      contradiction
    | some block =>
      obtain ⟨-, t', -, -, ht', hheap, -, hblock, -⟩ := build_of_measure hm ha
      obtain rfl := Except.ok.inj (h.symm.trans ht')
      rw [hheap, hblock]

theorem journal_of_measure_error {f : Fault} (hm : (measure b heap).2 = .error f) :
    (build b heap).journal = .reached .headerValidated :: f.notices.map .noted := by
  have hpair : measure b heap = ((measure b heap).1, .error f) := Prod.ext rfl hm
  unfold build
  rw [hpair]
  rfl

theorem journal_of_refused {heap' : Heap} (hm : (measure b heap).2 = .ok size)
    (ha : (measure b heap).1.allocate ⟨size + markSize, recordAlign⟩ = (heap', none)) :
    (build b heap).journal = [.reached .headerValidated, .noted (.measured size), .reached .sized,
      .noted (.blockRefused (size + markSize))] := by
  have hpair : measure b heap = ((measure b heap).1, .ok size) := Prod.ext rfl hm
  unfold build
  rw [hpair]
  simp only [blockLayout_of_measure hm, ha]
  rfl

theorem journal_of_build {t : Tree} (h : (build b heap).result = .ok t) :
    (build b heap).journal = [.reached .headerValidated, .noted (.measured t.size),
      .reached .sized, .reached .allocated, .reached .populated, .noted (.built t.nodeCount),
      .reached .ready] := by
  obtain ⟨p, hp, hm, -⟩ := populate_of_build h
  have hpair : measure b heap = ((measure b heap).1, .ok t.size) := Prod.ext rfl hm
  have ha := allocate_of_build h
  generalize (build b heap).heap = heap' at ha
  unfold build at h ⊢
  rw [hpair] at h ⊢
  simp only [blockLayout_of_measure hm, ha, finish, hp] at h ⊢
  cases hverify : verify b heap' t.block t.size p with
  | error f =>
    rw [hverify] at h
    contradiction
  | ok t' =>
    rw [hverify] at h
    cases h
    rfl

theorem populate_eq_ok {p : Populating} (h : populate b size = .ok p) :
    Populating.start.run size b.outline.events = .ok p ∧ b.outline.ending = .complete := by
  unfold populate at h
  dsimp only at h
  split at h
  · contradiction
  · rename_i p' hr
    cases hend : b.outline.ending with
    | complete =>
      rw [hend] at h
      cases h
      exact ⟨hr, rfl⟩
    | empty => simp [hend, Fault.ofEnding?] at h
    | failed e => simp [hend, Fault.ofEnding?] at h

/-- A build fails because the blob is no tree or because there is no memory for it. The passes
never disagree. -/
theorem eq_of_build_error {e : Error} (h : (build b heap).result = .error e) :
    e = .malformed ∨ e = .noNodes ∨ e = .outOfMemory := by
  cases hm : (measure b heap).2 with
  | error f =>
    obtain rfl := Except.error.inj ((build_of_measure_error hm).1.symm.trans h)
    rcases error_of_measure hm with ⟨rfl, -⟩ | ⟨rfl, -⟩ | hending
    · exact .inr (.inr rfl)
    · exact .inr (.inr rfl)
    · cases hend : b.outline.ending with
      | complete => simp [hend, Fault.ofEnding?] at hending
      | empty =>
        simp only [hend, Fault.ofEnding?, Option.some.injEq] at hending
        exact .inr (.inl (by rw [← hending, Fault.error]))
      | failed e =>
        simp only [hend, Fault.ofEnding?, Option.some.injEq] at hending
        exact .inl (by rw [← hending, Fault.error, Blob.eq_malformed_of_outline hend])
  | ok size =>
    cases ha : (measure b heap).1.allocate ⟨size + markSize, recordAlign⟩ with
    | mk heap' granted =>
      cases granted with
      | none => exact .inr (.inr (Except.error.inj ((build_of_refused hm ha).1.symm.trans h)).symm)
      | some block =>
        obtain ⟨p, t, -, -, ht, -⟩ := build_of_measure hm ha
        rw [ht] at h
        contradiction

theorem layout_of_measure (hm : (measure b heap).2 = .ok size) :
    (layout b heap).2 = .ok ⟨size + markSize, recordAlign⟩ := by
  have hpair : measure b heap = ((measure b heap).1, .ok size) := Prod.ext rfl hm
  unfold layout
  rw [hpair]
  simp [blockLayout_of_measure hm, Except.bind]

theorem layout_of_measure_error {f : Fault} (hm : (measure b heap).2 = .error f) :
    (layout b heap).2 = .error f := by
  have hpair : measure b heap = ((measure b heap).1, .error f) := Prod.ext rfl hm
  unfold layout
  rw [hpair]
  rfl

/-- Once a blob is measured and its block granted, the populating pass repeats every reservation,
the tree has the measured size, and any heap that grants the temporaries measures the block that
was requested. No build ends because the passes disagree. -/
theorem passes_agree (b : Blob) :
    (∀ (heap : Heap) (size : Nat), (measure b heap).2 = .ok size →
      (measure b heap).1.grants (measure b heap).1.requests = true →
      (∀ first rest, b.outline.events = first ++ rest →
        (Measuring.start.run heap first).fault = none ∧
        ∃ q, Populating.start.run size first = .ok q ∧
          q.cursor = (Measuring.start.run heap first).last.cursor ∧
          q.intervals = (Measuring.start.run heap first).last.reserved.reverse) ∧
      ∃ p t, populate b size = .ok p ∧ (Word.alignUp p.cursor.offset 4).toNat = size ∧
        (build b heap).result = .ok t ∧ t.records = p.records ∧ t.size = size ∧
        (measure b heap).1.grantCount = heap.grantCount + t.nodeCount ∧
        (measure b heap).1.allocate ⟨size + 4, 8⟩ = ((build b heap).heap, some t.block) ∧
        ∀ other : Heap, (∀ i < t.nodeCount, other.grants (other.requests + i) = true) →
          (layout b other).2 = .ok ⟨size + 4, 8⟩) ∧
    ∀ (heap : Heap) (expected used : Nat),
      (build b heap).result ≠ .error (.sizeMismatch expected used) := by
  constructor
  · intro heap size hm hg
    constructor
    · intro first rest hsplit
      obtain ⟨hfault, q, hq, hcursor, hintervals, -⟩ := run_agrees hm hsplit
      exact ⟨hfault, q, hq, hcursor, hintervals⟩
    · obtain ⟨heap', ha, -⟩ := Heap.allocate_of_grants ⟨size + 4, 8⟩ hg
      obtain ⟨p, t, hp, hcursor, ht, hheap, -, hblock, hsize, hcount, hrecords⟩ :=
        build_of_measure hm ha
      obtain ⟨hending, hreserved, -⟩ := measure_eq_ok_iff.1 hm
      refine ⟨p, t, hp, hcursor, ht, hrecords, hsize, ?_, ?_, ?_⟩
      · rw [hcount]
        exact (serves_measure hm).grantCount_eq
      · rw [hheap, hblock]
        exact ha
      · intro other hother
        rw [hcount] at hother
        exact layout_of_measure (measure_eq_ok_iff.2 ⟨hending, hreserved, hother⟩)
  · intro heap expected used h
    rcases eq_of_build_error h with h | h | h <;> contradiction

end Build

/-- A root with one property and one child, an end too many, and a second top-level node that is
named by its path. -/
def Blob.sample : Blob where
  address := 0x1000
  bytes := List.flatMap Bytes.ofWord32
    [0xd00dfeed, 124, 56, 120, 40, 17, 16, 0, 4, 64, 0, 0, 0, 0,
      4, 1, 0, 3, 4, 0, 1, 1, 0x61403100, 2, 2, 2, 1, 0x2f780000, 2, 9, 0x72656700]
  headerSize_le := by decide +kernel
  length_lt := by decide +kernel

namespace Build

theorem passes_agree_sample :
    (measure .sample (.fresh 0)).2 = .ok 540 ∧
      (Measuring.start.run (.fresh 0) (Blob.outline .sample).events).fault = none ∧
      ∃ t, (build .sample (.fresh 0)).result = .ok t ∧ t.size = 540 ∧
        (layout .sample (.fresh 1)).2 = .ok ⟨544, 8⟩ := by
  have hm : (measure .sample (.fresh 0)).2 = .ok 540 := by decide +kernel
  obtain ⟨hruns, p, t, -, -, ht, -, hsize, -, -, hlayout⟩ :=
    (passes_agree .sample).1 (.fresh 0) 540 hm (by decide +kernel)
  exact ⟨hm, (hruns _ [] (List.append_nil _).symm).1, t, ht, hsize,
    hlayout (.fresh 1) fun _ _ => rfl⟩

theorem exists_of_result {α β : Type} {result : Except Error β} {f : β → α} {x : α}
    (h : result.toOption.map f = some x) : ∃ a, result = .ok a ∧ f a = x := by
  cases result with
  | error e => contradiction
  | ok a => exact ⟨a, rfl, Option.some.inj h⟩

theorem exists_build_sample :
    ∃ t, (build .sample (.fresh 0)).result = .ok t ∧ t.nodeCount = 3 := by
  have hm : (measure .sample (.fresh 0)).2 = .ok 540 := by decide +kernel
  have hg : (measure .sample (.fresh 0)).1.grants (measure .sample (.fresh 0)).1.requests = true :=
    by decide +kernel
  obtain ⟨t, ht, hcount⟩ := exists_build_of_measure hm hg
  have hthree : Event.startCount Blob.sample.outline.events = 3 := by decide +kernel
  exact ⟨t, ht, hcount.trans hthree⟩

end Build
end Devicetree
