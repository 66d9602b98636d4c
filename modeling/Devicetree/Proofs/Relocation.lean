import Devicetree.Build
import Mathlib.Algebra.Group.Nat.Defs

/-!
# Relocation

A build sees of its heap only which requests are granted. What it does on a heap is therefore what
it does on a heap without a past that grants alike, each block being the one that the first heap
has for the same request.
-/

namespace Devicetree

/-- The block that a heap has for the same request, counted from those it had before. -/
def Block.on (base : Heap) (block : Block) : Block :=
  ⟨base.id, base.requests + block.serial, block.layout⟩

namespace Heap

def Action.on (base : Heap) : Action → Action
  | .granted block => .granted (block.on base)
  | .refused layout => .refused layout
  | .released block => .released (block.on base)

/-- What becomes of `base` by all that was done to `h`. -/
def after (base h : Heap) : Heap where
  id := base.id
  grants := base.grants
  requests := base.requests + h.requests
  history := h.history.map (Action.on base) ++ base.history
  imprint := base.imprint

/-- What a heap grants, without its past and its memory. -/
def renewed (h : Heap) : Heap :=
  ⟨0, fun i => h.grants (h.requests + i), 0, [], fun _ _ _ => 0⟩

variable {base h : Heap}

theorem after_renewed (h : Heap) : h.after h.renewed = h := rfl

theorem trace_after (base h : Heap) :
    (base.after h).trace = base.trace ++ h.trace.map (Action.on base) := by
  rw [trace, after, List.reverse_append, ← List.map_reverse]
  rfl

@[simp] theorem grants_allocate (h : Heap) (layout : Layout) :
    (h.allocate layout).1.grants = h.grants := by
  unfold allocate
  split <;> rfl

theorem imprint_allocate (h : Heap) (layout : Layout) :
    (h.allocate layout).1.imprint = h.imprint := by
  unfold allocate
  split <;> rfl

theorem allocate_after (hg : h.grants = base.renewed.grants) (layout : Layout) :
    (base.after h).allocate layout =
      (base.after (h.allocate layout).1, (h.allocate layout).2.map (Block.on base)) := by
  have hgrant : (base.after h).grants (base.after h).requests = h.grants h.requests := by
    rw [hg]
    rfl
  unfold allocate
  rw [hgrant]
  split <;> rfl

theorem releaseAll_after (base h : Heap) (blocks : List Block) :
    (base.after h).releaseAll (blocks.map (Block.on base)) = base.after (h.releaseAll blocks) := by
  induction blocks generalizing h with
  | nil => rfl
  | cons block rest ih => exact ih (h.release block)

@[simp] theorem grants_releaseAll (h : Heap) (blocks : List Block) :
    (h.releaseAll blocks).grants = h.grants := by
  induction blocks generalizing h with
  | nil => rfl
  | cons block rest ih => exact ih (h.release block)

end Heap

namespace Build

def Temporary.on (base : Heap) (t : Temporary) : Temporary := { t with block := t.block.on base }

namespace Measuring

def on (base : Heap) (m : Measuring) : Measuring :=
  { m with openNodes := m.openNodes.map (Temporary.on base) }

variable {base heap : Heap} {m : Measuring}

theorem path?_on (base : Heap) (m : Measuring) : (m.on base).path? = m.path? := by
  unfold path? on
  rw [List.head?_map, Option.map_map]
  rfl

theorem reserve_on (base : Heap) (m : Measuring) (length : Nat) :
    (m.on base).reserve length = (m.reserve length).map (on base) := by
  unfold reserve
  rw [show (m.on base).cursor = m.cursor from rfl]
  split <;> rfl

theorem startNode_on (hg : heap.grants = base.renewed.grants) (name : Bytes) :
    (m.on base).startNode (base.after heap) name =
      (base.after (m.startNode heap name).1, (m.startNode heap name).2.map (on base)) := by
  unfold startNode
  rw [path?_on]
  dsimp only
  rw [reserve_on]
  cases m.reserve (nodeRecordSize + (Path.join m.path? name).length) with
  | error f => rfl
  | ok m' =>
    dsimp only [Except.map]
    cases Layout.of? (temporarySize + (Path.join m.path? name).length) recordAlign with
    | none => rfl
    | some layout =>
      dsimp only
      rw [Heap.allocate_after hg]
      cases heap.allocate layout with
      | mk heap' granted => cases granted <;> rfl

theorem addProperty_on (base : Heap) (m : Measuring) (name : Bytes) :
    (m.on base).addProperty name = (m.addProperty name).map (on base) :=
  reserve_on base { m with isNamed := m.isNamed || name = nameKey } propertyRecordSize

theorem endProperties_on (base : Heap) (m : Measuring) :
    (m.on base).endProperties = m.endProperties.map (on base) := by
  unfold endProperties
  rw [path?_on, reserve_on, show (m.on base).isNamed = m.isNamed from rfl]
  split <;> rfl

theorem endNode_on (base heap : Heap) (m : Measuring) :
    (m.on base).endNode (base.after heap) =
      (base.after (m.endNode heap).1, (m.endNode heap).2.on base) := by
  obtain ⟨cursor, reserved, openNodes, nodeCount, isNamed⟩ := m
  cases openNodes <;> rfl

theorem step_on (hg : heap.grants = base.renewed.grants) (e : Event) :
    (m.on base).step (base.after heap) e =
      (base.after (m.step heap e).1, (m.step heap e).2.map (on base)) := by
  cases e with
  | startNode name => exact startNode_on hg name
  | property name value => exact congrArg (Prod.mk _) (addProperty_on base m name)
  | endProperties => exact congrArg (Prod.mk _) (endProperties_on base m)
  | endNode =>
    simp only [step, endNode_on]
    rfl

theorem grants_step (m : Measuring) (heap : Heap) (e : Event) :
    (m.step heap e).1.grants = heap.grants := by
  cases e with
  | startNode name =>
    simp only [step, startNode]
    split
    · rfl
    · split
      · rfl
      · rename_i layout _
        have hgrants := heap.grants_allocate layout
        split <;> simp_all
  | property name value => rfl
  | endProperties => rfl
  | endNode =>
    simp only [step, endNode]
    split <;> rfl

theorem run_on (hg : heap.grants = base.renewed.grants) (events : List Event) :
    (m.on base).run (base.after heap) events =
      ⟨base.after (m.run heap events).heap, (m.run heap events).last.on base,
        (m.run heap events).fault⟩ := by
  induction events generalizing m heap with
  | nil => rfl
  | cons e rest ih =>
    have hkept := grants_step m heap e
    rw [run, run, step_on hg]
    cases hs : m.step heap e with
    | mk heap' answer =>
      rw [hs] at hkept
      cases answer with
      | error f => rfl
      | ok m' => exact ih (hkept.trans hg)

end Measuring
end Build

def Tree.on (base : Heap) (t : Tree) : Tree :=
  { t with block := t.block.on base, imprint := base.imprint t.blob t.records }

namespace Build

def Outcome.on (base : Heap) (o : Outcome) : Outcome :=
  ⟨base.after o.heap, o.result.map (Tree.on base), o.journal⟩

variable {base heap : Heap} {b : Blob}

theorem measure_on (hg : heap.grants = base.renewed.grants) (b : Blob) :
    measure b (base.after heap) = (base.after (measure b heap).1, (measure b heap).2) := by
  have hrun := Measuring.run_on (m := .start) hg b.outline.events
  rw [show Measuring.start.on base = .start from rfl] at hrun
  have hblocks : ∀ l : List Temporary, (l.map (Temporary.on base)).map Temporary.block =
      (l.map Temporary.block).map (Block.on base) := by
    intro l
    rw [List.map_map, List.map_map]
    rfl
  unfold measure
  dsimp only
  rw [hrun]
  simp only [Measuring.on, hblocks, Heap.releaseAll_after]
  split <;> rfl

theorem grants_run (m : Measuring) (heap : Heap) (events : List Event) :
    (m.run heap events).heap.grants = heap.grants := by
  induction events generalizing m heap with
  | nil => rfl
  | cons e rest ih =>
    have hkept := m.grants_step heap e
    rw [Measuring.run]
    cases hs : m.step heap e with
    | mk heap' answer =>
      rw [hs] at hkept
      cases answer with
      | error f => exact hkept
      | ok m' => exact (ih m' heap').trans hkept

theorem grants_measure (b : Blob) (heap : Heap) : (measure b heap).1.grants = heap.grants := by
  unfold measure
  dsimp only
  split
  · rw [Heap.grants_releaseAll, grants_run]
  · rw [Heap.grants_releaseAll, grants_run]

theorem verify_on (b : Blob) (heap : Heap) (block : Block) (size : Nat) (p : Populating) :
    verify b (base.after heap) (block.on base) size p =
      (verify b heap block size p).map (Tree.on base) := by
  unfold verify
  split <;> rfl

theorem finish_on (b : Blob) (heap : Heap) (block : Block) (size : Nat) (journal : List Entry) :
    finish b (base.after heap) (block.on base) size journal =
      (finish b heap block size journal).on base := by
  unfold finish
  cases populate b size with
  | error f => rfl
  | ok p =>
    dsimp only
    rw [verify_on]
    cases verify b heap block size p <;> rfl

/-- A heap with a past takes a build on from where it is, and nothing else differs. -/
theorem build_on (hg : heap.grants = base.renewed.grants) (b : Blob) :
    build b (base.after heap) = (build b heap).on base := by
  have hkept := grants_measure b heap
  unfold build
  rw [measure_on hg]
  cases hm : measure b heap with
  | mk heap' answer =>
    rw [hm] at hkept
    cases answer with
    | error f => rfl
    | ok size =>
      dsimp only
      cases blockLayout size with
      | none => rfl
      | some layout =>
        dsimp only
        rw [Heap.allocate_after (hkept.trans hg)]
        cases heap'.allocate layout with
        | mk heap'' granted =>
          cases granted with
          | none => rfl
          | some block => exact finish_on b heap'' block size _

theorem build_eq_on (b : Blob) (heap : Heap) : build b heap = (build b heap.renewed).on heap := by
  rw [← build_on rfl, Heap.after_renewed]

theorem imprint_build (b : Blob) (heap : Heap) : (build b heap).heap.imprint = heap.imprint := by
  rw [build_eq_on]
  rfl

theorem imprint_measure (b : Blob) (heap : Heap) : (measure b heap).1.imprint = heap.imprint := by
  have hmeasure : measure b heap =
      (heap.after (measure b heap.renewed).1, (measure b heap.renewed).2) := measure_on rfl b
  rw [hmeasure]
  rfl

theorem imprint_of_build {t : Tree} (h : (build b heap).result = .ok t) :
    t.imprint = heap.imprint t.blob t.records := by
  rw [build_eq_on, Outcome.on] at h
  cases hresult : (build b heap.renewed).result with
  | error e =>
    rw [hresult] at h
    contradiction
  | ok t' =>
    rw [hresult] at h
    cases h
    rfl

end Build
end Devicetree
