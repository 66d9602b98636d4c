import Devicetree.Proofs.Memory
import Devicetree.Proofs.Relocation

/-!
# Refusals

What a build answers when its heap refuses a request. The temporaries of the measuring pass come
first, one for each node that it gets to, and the block of the tree comes last. A refusal ends the
build where it happens, so whatever would have gone wrong before it goes wrong still, and nothing
behind it matters.
-/

namespace Devicetree

theorem Heap.allocate_of_refuses {h : Heap} (layout : Layout) (hr : h.grants h.requests = false) :
    ∃ h', h.allocate layout = (h', none) := by
  unfold allocate
  rw [if_neg (by simp [hr])]
  exact ⟨_, rfl⟩

namespace Build

variable {b : Blob} {heap heap' other other' : Heap} {size k : Nat} {block : Block}

/-- The number of nodes that measuring gets to where nothing is refused. -/
def nodesMeasured (b : Blob) (heap : Heap) : Nat :=
  (Measuring.start.run (heap.limit none) b.outline.events).last.nodeCount

theorem nodesMeasured_eq (hstarts : ∀ s ∈ b.recordStarts, s < 2 ^ 32) (heap : Heap) :
    nodesMeasured b heap = Event.startCount b.outline.events := by
  obtain ⟨new, c, hnew⟩ := b.exists_reserveAll hstarts
  have hfault : (Measuring.start.run (heap.limit none) b.outline.events).fault = none :=
    Measuring.fault_eq_none_of_reserveAll Measuring.follows_start Draft.fits_start
      (fun e he => Blob.isShort_of_mem_outline he) hnew fun _ _ => rfl
  obtain ⟨hfollows, -, -⟩ := Measuring.run_of_fault_eq_none Measuring.follows_start hfault
  rw [nodesMeasured, hfollows.nodeCount, Draft.length_nodes_run]
  exact Nat.zero_add _

/-- A pass that is refused a temporary, if not stopped before, fails for want of memory. -/
theorem measure_of_refused (hk : k < Event.startCount b.outline.events)
    (hrefuses : heap.grants (heap.requests + k) = false) :
    ∃ f, (measure b heap).2 = .error f ∧ f.error = .outOfMemory := by
  cases hfault : (Measuring.start.run heap b.outline.events).fault with
  | none =>
    obtain ⟨-, -, hserves⟩ := Measuring.run_of_fault_eq_none Measuring.follows_start hfault
    have hgranted := hserves.granted k hk
    rw [hrefuses] at hgranted
    contradiction
  | some f =>
    refine ⟨f, ?_, ?_⟩
    · unfold measure
      dsimp only
      rw [hfault]
      rfl
    · rcases Measuring.run_fault_eq_some Measuring.follows_start Draft.fits_start
        (fun e he => Blob.isShort_of_mem_outline he) hfault with ⟨rfl, -⟩ | ⟨rfl, -⟩
      · rfl
      · rfl

theorem result_eq_of_block (himprint : heap.imprint = other.imprint)
    (hm : (measure b heap).2 = .ok size)
    (ha : (measure b heap).1.allocate ⟨size + markSize, recordAlign⟩ = (heap', some block))
    (hm' : (measure b other).2 = .ok size)
    (ha' : (measure b other).1.allocate ⟨size + markSize, recordAlign⟩ = (other', some block)) :
    (build b heap).result = (build b other).result := by
  obtain ⟨p, t, hp, -, ht, -, hblob, hblock, hsize, hcount, hrecords⟩ := build_of_measure hm ha
  obtain ⟨p', t', hp', -, ht', -, hblob', hblock', hsize', hcount', hrecords'⟩ :=
    build_of_measure hm' ha'
  obtain rfl := Except.ok.inj (hp.symm.trans hp')
  have htree := imprint_of_build ht
  have htree' := imprint_of_build ht'
  rw [ht, ht']
  cases t
  cases t'
  simp_all

theorem build_of_blockRefused (hm : (measure b heap).2 = .ok size)
    (hserves : heap.Serves k (measure b heap).1)
    (hrefuses : heap.grants (heap.requests + k) = false) :
    (build b heap).result = .error .outOfMemory := by
  rw [← hserves.grants_eq, ← hserves.requests_eq] at hrefuses
  obtain ⟨heap', ha⟩ := Heap.allocate_of_refuses ⟨size + markSize, recordAlign⟩ hrefuses
  exact (build_of_refused hm ha).1

/-- Builds on heaps that have had as many requests, and that serve them alike, end in the same
tree. -/
theorem result_eq_of_serves (hm : (measure b heap).2 = .ok size)
    (hm' : (measure b other).2 = .ok size) (hid : heap.id = other.id)
    (himprint : heap.imprint = other.imprint) (hrequests : heap.requests = other.requests)
    (hserves : heap.Serves k (measure b heap).1)
    (hserves' : other.Serves k (measure b other).1)
    (hgrants : heap.grants (heap.requests + k) = true)
    (hgrants' : other.grants (other.requests + k) = true) :
    ∃ t, (build b heap).result = .ok t ∧ (build b other).result = .ok t := by
  rw [← hserves.grants_eq, ← hserves.requests_eq] at hgrants
  rw [← hserves'.grants_eq, ← hserves'.requests_eq] at hgrants'
  obtain ⟨heap', ha, -⟩ := Heap.allocate_of_grants ⟨size + markSize, recordAlign⟩ hgrants
  obtain ⟨other', ha', -⟩ := Heap.allocate_of_grants ⟨size + markSize, recordAlign⟩ hgrants'
  rw [hserves'.id_eq, hserves'.requests_eq, ← hid, ← hrequests, ← hserves.id_eq,
    ← hserves.requests_eq] at ha'
  obtain ⟨-, t, -, -, ht, -⟩ := build_of_measure hm ha
  exact ⟨t, ht, (result_eq_of_block himprint hm ha hm' ha').symm.trans ht⟩

/-- Let a heap grant the first `k` requests of a build and refuse the next one. If that is the
request for a temporary, the build is out of memory. If measuring fails before, the build fails as
it would without refusals. If only the block is refused, the build is out of memory too, and else
the tree is the one built without refusals. A build that fails leaves nothing live, and one that
succeeds leaves the block that its tree gives back. -/
theorem build_of_refusal (b : Blob) (heap : Heap) (k : Nat)
    (hstarts : ∀ s ∈ b.recordStarts, s < 2 ^ 32)
    (hgrants : ∀ i < k, heap.grants (heap.requests + i) = true)
    (hrefuses : heap.grants (heap.requests + k) = false) :
    (k < nodesMeasured b heap → (build b heap).result = .error .outOfMemory) ∧
    (nodesMeasured b heap ≤ k → ∀ f, (measure b (heap.limit none)).2 = .error f →
      (build b heap).result = .error f.error) ∧
    (∀ size, (measure b (heap.limit none)).2 = .ok size →
      (k = nodesMeasured b heap → (build b heap).result = .error .outOfMemory) ∧
      (nodesMeasured b heap < k → ∃ t, (build b heap).result = .ok t ∧
        (build b (heap.limit none)).result = .ok t)) ∧
    (∀ e, (build b heap).result = .error e → heap.Leaves [] (build b heap).heap) ∧
    ∀ t, (build b heap).result = .ok t → heap.Leaves [t.block] (build b heap).heap ∧
      heap.Leaves [] (t.release (build b heap).heap) := by
  have hcount := nodesMeasured_eq hstarts heap
  obtain ⟨new, c, hnew⟩ := b.exists_reserveAll hstarts
  obtain ⟨hfree, hservesFree⟩ : _ ∧ (heap.limit none).Serves _ (measure b (heap.limit none)).1 :=
    measure_of_reserveAll hnew fun _ _ => rfl
  have henough : nodesMeasured b heap ≤ k → (measure b heap).2 = (measure b (heap.limit none)).2 ∧
      heap.Serves (nodesMeasured b heap) (measure b heap).1 := by
    intro hk
    rw [hfree, hcount]
    exact measure_of_reserveAll hnew fun i hi => hgrants i (by omega)
  have hlive := leaves_build b heap
  refine ⟨?_, ?_, ?_, ?_, ?_⟩
  · intro hk
    obtain ⟨f, hm, hf⟩ := measure_of_refused (hcount ▸ hk) hrefuses
    rw [(build_of_measure_error hm).1, hf]
  · intro hk f hf
    exact (build_of_measure_error ((henough hk).1.trans hf)).1
  · intro size hsize
    constructor
    · rintro rfl
      obtain ⟨hm, hserves⟩ := henough (Nat.le_refl _)
      exact build_of_blockRefused (hm.trans hsize) hserves hrefuses
    · intro hk
      obtain ⟨hm, hserves⟩ := henough (Nat.le_of_lt hk)
      rw [← hcount] at hservesFree
      exact result_eq_of_serves (hm.trans hsize) hsize rfl rfl rfl hserves hservesFree
        (hgrants _ hk) rfl
  · intro e he
    rw [he] at hlive
    exact hlive
  · intro t ht
    rw [ht] at hlive
    exact ⟨hlive, hlive.release⟩

theorem build_of_refusal_sample :
    (∀ s ∈ Blob.sample.recordStarts, s < 2 ^ 32) ∧ nodesMeasured .sample (.fresh 0) = 3 ∧
      (build .sample ((Heap.fresh 0).limit (some 2))).result = .error .outOfMemory ∧
      (build .sample ((Heap.fresh 0).limit (some 3))).result = .error .outOfMemory ∧
      ∃ t, (build .sample ((Heap.fresh 0).limit (some 4))).result = .ok t := by
  have hstarts : ∀ s ∈ Blob.sample.recordStarts, s < 2 ^ 32 := by decide +kernel
  have hcount : nodesMeasured .sample (.fresh 0) = 3 := by decide +kernel
  have hm : (measure .sample ((Heap.fresh 0).limit none)).2 = .ok 540 := by decide +kernel
  have hlimit : ∀ n, (∀ i < n, ((Heap.fresh 0).limit (some n)).grants (0 + i) = true) ∧
      ((Heap.fresh 0).limit (some n)).grants (0 + n) = false := by
    intro n
    simp [Heap.limit, Heap.fresh]
  obtain ⟨htwo, -⟩ := build_of_refusal .sample ((Heap.fresh 0).limit (some 2)) 2 hstarts
    (hlimit 2).1 (hlimit 2).2
  obtain ⟨-, -, hthree, -⟩ := build_of_refusal .sample ((Heap.fresh 0).limit (some 3)) 3 hstarts
    (hlimit 3).1 (hlimit 3).2
  obtain ⟨-, -, hfour, -⟩ := build_of_refusal .sample ((Heap.fresh 0).limit (some 4)) 4 hstarts
    (hlimit 4).1 (hlimit 4).2
  obtain ⟨t, ht, -⟩ := (hfour 540 hm).2 (by decide +kernel)
  exact ⟨hstarts, hcount, htwo (by decide +kernel), (hthree 540 hm).1 (by decide +kernel), t, ht⟩

end Build
end Devicetree
