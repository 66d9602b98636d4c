import Devicetree.Build.Measure
import Devicetree.Proofs.Outline

/-!
# What measuring does

The measuring pass follows the draft of its outline: its temporaries are the open nodes, and it
makes the reservations of the draft. It gets through an outline exactly if every record can be
placed and the heap grants a temporary for every node.
-/

namespace Devicetree

namespace Heap

/-- The heap `h'` is `h` after `n` requests that it granted, and some releases. -/
structure Serves (h : Heap) (n : Nat) (h' : Heap) : Prop where
  id_eq : h'.id = h.id
  grants_eq : h'.grants = h.grants
  requests_eq : h'.requests = h.requests + n
  grantCount_eq : h'.grantCount = h.grantCount + n
  granted : ∀ i < n, h.grants (h.requests + i) = true

variable {h h' h'' : Heap} {m n : Nat}

theorem Serves.refl (h : Heap) : h.Serves 0 h := ⟨rfl, rfl, rfl, rfl, by simp⟩

theorem Serves.trans (h₁ : h.Serves m h') (h₂ : h'.Serves n h'') : h.Serves (m + n) h'' := by
  refine ⟨h₂.id_eq.trans h₁.id_eq, h₂.grants_eq.trans h₁.grants_eq, ?_, ?_, ?_⟩
  · rw [h₂.requests_eq, h₁.requests_eq, Nat.add_assoc]
  · rw [h₂.grantCount_eq, h₁.grantCount_eq, Nat.add_assoc]
  · intro i hi
    by_cases him : i < m
    · exact h₁.granted i him
    · have hlater := h₂.granted (i - m) (by omega)
      rw [h₁.grants_eq, h₁.requests_eq] at hlater
      rwa [show h.requests + m + (i - m) = h.requests + i by omega] at hlater

theorem serves_release (h : Heap) (block : Block) : h.Serves 0 (h.release block) :=
  ⟨rfl, rfl, rfl, by simp [release, grantCount], by simp⟩

theorem serves_releaseAll (h : Heap) (blocks : List Block) : h.Serves 0 (h.releaseAll blocks) := by
  induction blocks generalizing h with
  | nil => exact .refl h
  | cons block rest ih => exact (serves_release h block).trans (ih (h.release block))

theorem allocate_of_grants (layout : Layout) (hg : h.grants h.requests = true) :
    ∃ h', h.allocate layout = (h', some ⟨h.id, h.requests, layout⟩) ∧ h.Serves 1 h' := by
  unfold allocate
  rw [if_pos hg]
  refine ⟨_, rfl, rfl, rfl, rfl, by simp [grantCount], ?_⟩
  intro i hi
  obtain rfl : i = 0 := by omega
  exact hg

theorem grants_of_allocate {layout : Layout} {block : Block}
    (ha : h.allocate layout = (h', some block)) : h.grants h.requests = true := by
  unfold allocate at ha
  split at ha
  · assumption
  · simp at ha

theorem refuses_of_allocate {layout : Layout} (ha : h.allocate layout = (h', none)) :
    h.grants h.requests = false := by
  unfold allocate at ha
  split at ha
  · simp at ha
  · rename_i hg
    simpa using hg

end Heap

namespace Build
namespace Measuring

structure Follows (m : Measuring) (d : Draft) : Prop where
  opens : Draft.Opens d.nodes d.current (m.openNodes.map Temporary.path)
  isNamed : m.isNamed = d.isNamed
  nodeCount : m.nodeCount = d.nodes.length

theorem follows_start : start.Follows Draft.start := ⟨.top, rfl, rfl⟩

variable {m m' : Measuring} {d : Draft} {c c' : Cursor} {e : Event} {events : List Event}
  {heap heap' : Heap} {new : List Interval} {size length : Nat} {b : Blob}

theorem Follows.path?_eq (h : m.Follows d) : m.path? = d.path? := by
  rw [h.opens.path?]
  simp [path?]

theorem reserve_eq_ok (hr : m.reserve length = .ok m') :
    ∃ i c, m.cursor.reserveRecord length = some (i, c) ∧
      m' = { m with cursor := c, reserved := i :: m.reserved } := by
  unfold reserve at hr
  split at hr
  · contradiction
  · rename_i i c hrec
    cases hr
    exact ⟨i, c, hrec, rfl⟩

theorem reserve_eq_error {f : Fault} (hr : m.reserve length = .error f) :
    f = .outOfRange ∧ m.cursor.reserveRecord length = none := by
  unfold reserve at hr
  split at hr
  · rename_i hnone
    exact ⟨(Except.error.inj hr).symm, hnone⟩
  · contradiction

structure Kept (m : Measuring) (d : Draft) (e : Event) (heap heap' : Heap) (m' : Measuring) :
    Prop where
  follows : m'.Follows (d.step e)
  reserved : ∃ new, d.reserve? m.cursor e = some (new, m'.cursor) ∧
    m'.reserved = new.reverse ++ m.reserved
  serves : heap.Serves (if e.isStart then 1 else 0) heap'

theorem kept_startNode {name : Bytes} (h : m.Follows d)
    (hs : m.startNode heap name = (heap', .ok m')) : m.Kept d (.startNode name) heap heap' m' := by
  have hpath := h.path?_eq
  unfold startNode at hs
  dsimp only at hs
  split at hs
  · simp at hs
  · rename_i m₁ hr
    obtain ⟨i, c, hrec, rfl⟩ := reserve_eq_ok hr
    split at hs
    · simp at hs
    · rename_i layout hlayout
      split at hs
      · simp at hs
      · rename_i heap₁ block halloc
        obtain ⟨heap₂, halloc', hserves⟩ :=
          Heap.allocate_of_grants layout (Heap.grants_of_allocate halloc)
        rw [halloc] at halloc'
        cases halloc'
        cases hs
        refine ⟨⟨?_, rfl, ?_⟩, ⟨[i], ?_, rfl⟩, hserves⟩
        · have hopens := h.opens.step (.startNode name)
          simpa [Draft.openPaths, path?] using hopens
        · simp [Draft.step, h.nodeCount]
        · rw [hpath] at hrec
          simp [Draft.reserve?, Draft.demand, hrec]

theorem kept_addProperty {name value : Bytes} (h : m.Follows d)
    (hs : m.addProperty name = .ok m') : m.Kept d (.property name value) heap heap m' := by
  unfold addProperty at hs
  obtain ⟨i, c, hrec, rfl⟩ := reserve_eq_ok hs
  refine ⟨⟨h.opens.step (.property name value), ?_, ?_⟩, ⟨[i], ?_, rfl⟩, .refl heap⟩
  · simp [Draft.step, h.isNamed]
  · simp [Draft.step, h.nodeCount]
  · simpa [Draft.reserve?, Draft.demand] using hrec

theorem kept_endProperties (h : m.Follows d) (hs : m.endProperties = .ok m') :
    m.Kept d .endProperties heap heap m' := by
  have hpath := h.path?_eq
  have hnamed := h.isNamed
  have hopens := h.opens.step .endProperties
  unfold endProperties at hs
  split at hs
  · rename_i hn
    cases hs
    rw [hnamed] at hn
    refine ⟨⟨hopens, ?_, ?_⟩, ⟨[], ?_, rfl⟩, .refl heap⟩
    · simp [Draft.step, hn, hnamed]
    · simp [Draft.step, hn, h.nodeCount]
    · simp [Draft.reserve?, Draft.demand, hn]
  · rename_i hn
    obtain ⟨i, c, hrec, rfl⟩ := reserve_eq_ok hs
    rw [hnamed, Bool.not_eq_true] at hn
    refine ⟨⟨hopens, ?_, ?_⟩, ⟨[i], ?_, rfl⟩, .refl heap⟩
    · simp [Draft.step, hn, hnamed]
    · simp [Draft.step, hn, h.nodeCount]
    · rw [hpath] at hrec
      simp [Draft.reserve?, Draft.demand, hn, Draft.ownName, hrec]

theorem kept_endNode (h : m.Follows d) :
    m.Kept d .endNode heap (m.endNode heap).1 (m.endNode heap).2 := by
  have hopens := h.opens.step .endNode
  unfold endNode
  split
  · rename_i hnone
    rw [hnone] at hopens
    refine ⟨⟨?_, h.isNamed, h.nodeCount⟩, ⟨[], rfl, rfl⟩, .refl heap⟩
    rw [hnone]
    exact hopens
  · rename_i t rest hsome
    rw [hsome] at hopens
    exact ⟨⟨hopens, h.isNamed, h.nodeCount⟩, ⟨[], rfl, rfl⟩, Heap.serves_release heap t.block⟩

theorem kept_of_step (h : m.Follows d) (hs : m.step heap e = (heap', .ok m')) :
    m.Kept d e heap heap' m' := by
  cases e with
  | startNode name => exact kept_startNode h hs
  | property name value =>
    obtain ⟨rfl, hadd⟩ := Prod.mk.inj hs
    exact kept_addProperty h hadd
  | endProperties =>
    obtain ⟨rfl, hend⟩ := Prod.mk.inj hs
    exact kept_endProperties h hend
  | endNode =>
    cases hs
    exact kept_endNode h

/-- A step fails where its record cannot be placed, or where the heap refuses its temporary. -/
theorem step_eq_error {f : Fault} (h : m.Follows d) (hfits : d.Fits m.cursor) (he : e.IsShort)
    (hs : m.step heap e = (heap', .error f)) :
    (f = .outOfRange ∧ d.reserve? m.cursor e = none) ∨
      (f = .temporaryRefused ∧ e.isStart = true ∧ heap.grants heap.requests = false) := by
  have hpath := h.path?_eq
  cases e with
  | startNode name =>
    have hlen := hfits.demand_le he rfl
    have hoff := hfits.offset_lt
    simp only [step, startNode] at hs
    split at hs
    · rename_i hr
      cases hs
      obtain ⟨rfl, hnone⟩ := reserve_eq_error hr
      rw [hpath] at hnone
      exact .inl ⟨rfl, by simp [Draft.reserve?, Draft.demand, hnone]⟩
    · split at hs
      · rename_i hlayout
        have hsize : UInt64.size = 2 ^ 64 := rfl
        unfold Layout.of? temporarySize recordAlign at hlayout
        unfold nodeRecordSize at hlen
        rw [← hpath] at hlen
        split at hlayout
        · contradiction
        · omega
      · split at hs
        · rename_i halloc
          cases hs
          exact .inr ⟨rfl, rfl, Heap.refuses_of_allocate halloc⟩
        · simp at hs
  | property name value =>
    obtain ⟨rfl, hnone⟩ := reserve_eq_error (Prod.mk.inj hs).2
    exact .inl ⟨rfl, by simpa [Draft.reserve?, Draft.demand] using hnone⟩
  | endProperties =>
    have hend : m.endProperties = .error f := (Prod.mk.inj hs).2
    unfold endProperties at hend
    split at hend
    · contradiction
    · rename_i hn
      obtain ⟨rfl, hnone⟩ := reserve_eq_error hend
      rw [h.isNamed, Bool.not_eq_true] at hn
      rw [hpath] at hnone
      exact .inl ⟨rfl, by simp [Draft.reserve?, Draft.demand, hn, Draft.ownName, hnone]⟩
  | endNode => simp [step] at hs

theorem run_cons_of_step (hs : m.step heap e = (heap', .ok m')) :
    m.run heap (e :: events) = m'.run heap' events := by
  rw [run, hs]

theorem fault_of_run_append {first rest : List Event}
    (hr : (m.run heap (first ++ rest)).fault = none) : (m.run heap first).fault = none := by
  induction first generalizing m heap with
  | nil => rfl
  | cons e first ih =>
    rw [List.cons_append, run] at hr
    rw [run]
    split at hr
    · contradiction
    · exact ih hr

theorem run_of_fault_eq_none (h : m.Follows d) (hr : (m.run heap events).fault = none) :
    (m.run heap events).last.Follows (d.run events) ∧
      (∃ new, d.reserveAll? m.cursor events = some (new, (m.run heap events).last.cursor) ∧
        (m.run heap events).last.reserved = new.reverse ++ m.reserved) ∧
      heap.Serves (Event.startCount events) (m.run heap events).heap := by
  induction events generalizing m d heap with
  | nil => exact ⟨h, ⟨[], rfl, rfl⟩, .refl heap⟩
  | cons e rest ih =>
    rw [run] at hr
    split at hr
    · contradiction
    · rename_i heap' m' hs
      obtain ⟨hfollows, ⟨new, hnew, hreserved⟩, hserves⟩ := kept_of_step h hs
      obtain ⟨hfollows', ⟨later, hlater, hreserved'⟩, hserves'⟩ := ih hfollows hr
      rw [run_cons_of_step hs, Draft.run_cons]
      refine ⟨hfollows', ⟨new ++ later, ?_, ?_⟩, ?_⟩
      · exact Draft.reserveAll?_cons.2 ⟨new, m'.cursor, later, hnew, hlater, rfl⟩
      · rw [hreserved', hreserved, List.reverse_append, List.append_assoc]
      · rw [Event.startCount_cons, Nat.add_comm]
        exact hserves.trans hserves'

/-- A pass has a fault where a record cannot be placed, or where a temporary is refused. -/
theorem run_fault_eq_some {f : Fault} (h : m.Follows d) (hfits : d.Fits m.cursor)
    (he : ∀ e ∈ events, e.IsShort) (hr : (m.run heap events).fault = some f) :
    (f = .outOfRange ∧ d.reserveAll? m.cursor events = none) ∨
      (f = .temporaryRefused ∧
        ∃ i < Event.startCount events, heap.grants (heap.requests + i) = false) := by
  induction events generalizing m d heap with
  | nil => contradiction
  | cons e rest ih =>
    have hshort := he e List.mem_cons_self
    have hcount := Event.startCount_cons e rest
    rw [run] at hr
    split at hr
    · rename_i hs
      cases hr
      rcases step_eq_error h hfits hshort hs with ⟨rfl, hnone⟩ | ⟨rfl, hstart, hrefuses⟩
      · exact .inl ⟨rfl, by rw [Draft.reserveAll?, hnone]⟩
      · exact .inr ⟨rfl, 0, by rw [hcount, if_pos hstart]; omega, hrefuses⟩
    · rename_i hs
      obtain ⟨hfollows, ⟨now, hnow, -⟩, hserves⟩ := kept_of_step h hs
      rcases ih hfollows (hfits.step hshort hnow) (fun e' he' => he e' (List.mem_cons_of_mem _ he'))
        hr with ⟨rfl, hnone⟩ | ⟨rfl, i, hi, hrefuses⟩
      · exact .inl ⟨rfl, by simp [Draft.reserveAll?, hnow, hnone]⟩
      · rw [hserves.grants_eq, hserves.requests_eq, Nat.add_assoc] at hrefuses
        exact .inr ⟨rfl, _, by omega, hrefuses⟩

theorem fault_eq_none_of_reserveAll (h : m.Follows d) (hfits : d.Fits m.cursor)
    (he : ∀ e ∈ events, e.IsShort) (hr : d.reserveAll? m.cursor events = some (new, c))
    (hg : ∀ i < Event.startCount events, heap.grants (heap.requests + i) = true) :
    (m.run heap events).fault = none := by
  cases hfault : (m.run heap events).fault with
  | none => rfl
  | some f =>
    rcases run_fault_eq_some h hfits he hfault with ⟨-, hnone⟩ | ⟨-, i, hi, hrefuses⟩
    · rw [hr] at hnone
      contradiction
    · rw [hg i hi] at hrefuses
      contradiction

end Measuring

open Measuring

variable {b : Blob} {heap : Heap} {size : Nat}

/-- Where every record can be placed and every temporary is granted, the outline alone decides how
measuring ends. -/
theorem measure_of_reserveAll {new : List Interval} {c : Cursor}
    (hnew : Draft.start.reserveAll? .start b.outline.events = some (new, c))
    (hg : ∀ i < Event.startCount b.outline.events, heap.grants (heap.requests + i) = true) :
    (measure b heap).2 = (Fault.ofEnding? b.outline.ending).elim
        (.ok (Word.alignUp c.offset 4).toNat) .error ∧
      heap.Serves (Event.startCount b.outline.events) (measure b heap).1 := by
  have hfault := fault_eq_none_of_reserveAll follows_start Draft.fits_start
    (fun e he => Blob.isShort_of_mem_outline he) hnew hg
  obtain ⟨-, ⟨new', hnew', -⟩, hserves⟩ := run_of_fault_eq_none follows_start hfault
  obtain ⟨-, rfl⟩ := Prod.mk.inj (Option.some.inj (hnew.symm.trans hnew'))
  have hreleased := hserves.trans (Heap.serves_releaseAll _
    ((start.run heap b.outline.events).last.openNodes.map Temporary.block))
  unfold measure
  dsimp only
  rw [hfault, Option.none_or]
  cases Fault.ofEnding? b.outline.ending with
  | none => exact ⟨rfl, hreleased⟩
  | some f => exact ⟨rfl, hreleased⟩

theorem measure_eq_ok_iff :
    (measure b heap).2 = .ok size ↔
      b.outline.ending = .complete ∧
        (∃ new c, Draft.start.reserveAll? .start b.outline.events = some (new, c) ∧
          size = (Word.alignUp c.offset 4).toNat) ∧
        ∀ i < Event.startCount b.outline.events, heap.grants (heap.requests + i) = true := by
  constructor
  · intro hm
    unfold measure at hm
    dsimp only at hm
    split at hm
    · contradiction
    · rename_i hnone
      obtain ⟨hfault, hending⟩ := Option.or_eq_none_iff.1 hnone
      obtain ⟨-, ⟨new, hnew, -⟩, hserves⟩ := run_of_fault_eq_none follows_start hfault
      cases hm
      refine ⟨?_, ⟨new, _, hnew, rfl⟩, hserves.granted⟩
      cases hend : b.outline.ending with
      | complete => rfl
      | empty => simp [hend, Fault.ofEnding?] at hending
      | failed e => simp [hend, Fault.ofEnding?] at hending
  · rintro ⟨hending, ⟨new, c, hnew, rfl⟩, hg⟩
    rw [(measure_of_reserveAll hnew hg).1, hending]
    rfl

theorem size_eq_of_measure {other : Heap} {size' : Nat} (hm : (measure b heap).2 = .ok size)
    (hm' : (measure b other).2 = .ok size') : size = size' := by
  obtain ⟨-, ⟨new, c, hnew, rfl⟩, -⟩ := measure_eq_ok_iff.1 hm
  obtain ⟨-, ⟨new', c', hnew', rfl⟩, -⟩ := measure_eq_ok_iff.1 hm'
  obtain ⟨-, rfl⟩ := Prod.mk.inj (Option.some.inj (hnew.symm.trans hnew'))
  rfl

theorem error_of_measure {f : Fault} (hm : (measure b heap).2 = .error f) :
    (f = .outOfRange ∧ Draft.start.reserveAll? .start b.outline.events = none) ∨
      (f = .temporaryRefused ∧ ∃ i < Event.startCount b.outline.events,
        heap.grants (heap.requests + i) = false) ∨
      Fault.ofEnding? b.outline.ending = some f := by
  unfold measure at hm
  dsimp only at hm
  split at hm
  · rename_i f' hf
    cases hm
    rcases Option.or_eq_some_iff.1 hf with hfault | ⟨-, hending⟩
    · exact (run_fault_eq_some follows_start Draft.fits_start
        (fun e he => Blob.isShort_of_mem_outline he) hfault).imp_right .inl
    · exact .inr (.inr hending)
  · contradiction

theorem serves_measure (hm : (measure b heap).2 = .ok size) :
    heap.Serves (Event.startCount b.outline.events) (measure b heap).1 := by
  unfold measure at hm ⊢
  dsimp only at hm ⊢
  split at hm
  · contradiction
  · rename_i hnone
    obtain ⟨hfault, -⟩ := Option.or_eq_none_iff.1 hnone
    obtain ⟨-, -, hserves⟩ := run_of_fault_eq_none follows_start hfault
    exact hserves.trans (Heap.serves_releaseAll _ _)

end Build
end Devicetree
