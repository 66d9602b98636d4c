import Devicetree.Proofs.Likeness
import Devicetree.Proofs.Memory
import Mathlib.Data.List.Induction

/-!
# Runs of a machine

What is done to a machine is a list of commands, and its heap may change its mind between any two
of them. Whatever the commands are, the machine holds a tree just when it is ready, the tree's
block is all that it keeps of the heap, and the tree is the one of the blob that was set up last.
-/

namespace Devicetree
namespace Machine

inductive Command
  | setUp (buffer : Buffer)
  | setUpMemory (memory : Option Buffer)
  | tearDown
  | ask (after : Option Node) (query : Query)
  /-- From here on the heap grants other requests than before. -/
  | regrant (grants : Nat → Bool)

def perform (m : Machine) : Command → Machine
  | .setUp buffer => (m.setUp buffer).machine
  | .setUpMemory memory => (m.setUpMemory memory).machine
  | .tearDown => m.tearDown
  | .ask _ _ => m
  | .regrant grants => { m with heap := { m.heap with grants } }

def run (m : Machine) (commands : List Command) : Machine := commands.foldl perform m

/-- What a command sets up: a blob, or bytes that are none. -/
def Command.subject? : Command → Option (Except Error Blob)
  | .setUp buffer => some (Blob.ofBuffer buffer)
  | .setUpMemory memory => some (Blob.ofMemory memory)
  | .tearDown | .ask _ _ | .regrant _ => none

def lastSubject? (commands : List Command) : Option (Except Error Blob) :=
  (commands.filterMap Command.subject?).getLast?

theorem lastSubject?_concat (commands : List Command) (c : Command) :
    lastSubject? (commands ++ [c]) = c.subject?.or (lastSubject? commands) := by
  unfold lastSubject?
  cases hc : c.subject? <;> simp [hc, List.filterMap_append]

def blocks (m : Machine) : List Block := (m.tree.map Tree.block).toList

/-- What every step keeps: the stages in the middle of a build are never seen, and a tree was built
from what was set up last, in memory of one kind. -/
structure Keeps (base : Heap) (subject : Option (Except Error Blob)) (m : Machine) : Prop where
  stage : m.stage = .uninitialized ∨ m.stage = .ready ∨ m.stage = .failed
  isSome_tree_iff : m.tree.isSome ↔ m.stage = .ready
  leaves : base.Leaves m.blocks m.heap
  imprint : m.heap.imprint = base.imprint
  built : ∀ s, m.tree = some s → ∃ b heap, subject = some (.ok b) ∧
    heap.imprint = base.imprint ∧ (build b heap).result = .ok s

/-- A step that sets up ends with a tree where it succeeds, and without one where it fails. -/
structure Settled (s : Step) : Prop where
  ready_iff : s.machine.stage = .ready ↔ s.answer = .ok ()
  failed : ∀ e, s.answer = .error e → s.machine.stage = .failed ∧ s.machine.tree = none

variable {m : Machine} {base : Heap} {subject : Option (Except Error Blob)}

theorem follow_build {b : Blob} {heap : Heap} {t : Tree} (stage : Stage)
    (h : (build b heap).result = .ok t) : (follow stage (build b heap).journal).1 = .ready := by
  rw [Build.journal_of_build h]
  rfl

/-- The ends of a set-up of a machine that holds nothing. -/
theorem setUpBlob_cases (blob : Except Error Blob) (hm : m.tree = none) :
    (∃ b t, blob = .ok b ∧ (build b m.heap).result = .ok t ∧
      (m.setUpBlob blob).answer = .ok () ∧
      (m.setUpBlob blob).machine = ⟨(build b m.heap).heap, .ready, some t⟩ ∧
      m.heap.Leaves [t.block] (build b m.heap).heap) ∨
    ∃ e heap, (m.setUpBlob blob).answer = .error e ∧
      (m.setUpBlob blob).machine = ⟨heap, .failed, none⟩ ∧ m.heap.Leaves [] heap ∧
      heap.imprint = m.heap.imprint := by
  cases blob with
  | error e =>
    refine .inr ⟨e, m.heap, rfl, ?_, m.heap.leaves_refl, rfl⟩
    rw [setUpBlob, hm]
  | ok b =>
    have hleaves := Build.leaves_build b m.heap
    cases hresult : (build b m.heap).result with
    | error e =>
      rw [hresult] at hleaves
      refine .inr ⟨e, (build b m.heap).heap, ?_, ?_, hleaves, Build.imprint_build b m.heap⟩ <;>
        simp only [setUpBlob, hresult]
    | ok t =>
      rw [hresult] at hleaves
      refine .inl ⟨b, t, rfl, hresult, ?_, ?_, hleaves⟩
      · simp only [setUpBlob, hresult]
      · simp only [setUpBlob, hresult, follow_build m.stage hresult]

theorem settled_setUpBlob (blob : Except Error Blob) (hm : m.tree = none) :
    Settled (m.setUpBlob blob) := by
  rcases setUpBlob_cases blob hm with ⟨b, t, -, -, ha, hmachine, -⟩ | ⟨e, heap, ha, hmachine, -⟩
  · constructor <;> simp [ha, hmachine]
  · constructor <;> simp [ha, hmachine]

theorem settled_setUp (m : Machine) (buffer : Buffer) : Settled (m.setUp buffer) :=
  settled_setUpBlob _ rfl

theorem settled_setUpMemory (m : Machine) (memory : Option Buffer) :
    Settled (m.setUpMemory memory) :=
  settled_setUpBlob _ rfl

theorem imprint_drop (m : Machine) : m.drop.imprint = m.heap.imprint := by
  unfold drop
  cases m.tree <;> rfl

theorem leaves_drop (hl : base.Leaves m.blocks m.heap) : base.Leaves [] m.drop := by
  unfold blocks at hl
  unfold drop
  cases hm : m.tree with
  | none =>
    rw [hm] at hl
    exact hl
  | some t =>
    rw [hm] at hl
    exact hl.release

namespace Keeps

theorem start (heap : Heap) : Keeps heap none (start heap) where
  stage := .inl rfl
  isSome_tree_iff := by simp [Machine.start]
  leaves := heap.leaves_refl
  imprint := rfl
  built := nofun

theorem tearDown (h : Keeps base subject m) : Keeps base subject m.tearDown where
  stage := .inl rfl
  isSome_tree_iff := by simp [Machine.tearDown]
  leaves := leaves_drop h.leaves
  imprint := (imprint_drop m).trans h.imprint
  built := nofun

theorem setUpBlob (h : Keeps base subject m) (blob : Except Error Blob) :
    Keeps base (some blob) (m.tearDown.setUpBlob blob).machine := by
  have hl := h.tearDown.leaves
  have himprint := h.tearDown.imprint
  rcases setUpBlob_cases (m := m.tearDown) blob rfl with
    ⟨b, t, rfl, hresult, -, hmachine, hleaves⟩ | ⟨e, heap, -, hmachine, hleaves, hkept⟩
  · rw [hmachine]
    refine ⟨.inr (.inl rfl), by simp, hl.trans hleaves, ?_, ?_⟩
    · exact (Build.imprint_build b m.tearDown.heap).trans himprint
    · intro s hs
      cases hs
      exact ⟨b, m.tearDown.heap, rfl, himprint, hresult⟩
  · rw [hmachine]
    exact ⟨.inr (.inr rfl), by simp, hl.trans hleaves, hkept.trans himprint, nofun⟩

theorem step (h : Keeps base subject m) (c : Command) :
    Keeps base (c.subject?.or subject) (m.perform c) := by
  cases c with
  | setUp buffer => exact h.setUpBlob (Blob.ofBuffer buffer)
  | setUpMemory memory => exact h.setUpBlob (Blob.ofMemory memory)
  | tearDown => exact h.tearDown
  | ask after query => exact h
  | regrant grants => exact ⟨h.stage, h.isSome_tree_iff, h.leaves, h.imprint, h.built⟩

theorem run (heap : Heap) (commands : List Command) :
    Keeps heap (lastSubject? commands) ((Machine.start heap).run commands) := by
  induction commands using List.reverseRecOn with
  | nil => exact start heap
  | append_singleton commands c ih =>
    rw [lastSubject?_concat, Machine.run, List.foldl_concat]
    exact ih.step c

end Keeps

/-- The machine holds a tree, and answers as another one does. -/
def AnswersLike (m : Machine) (t : Tree) : Prop :=
  ∃ s, m.tree = some s ∧ ∀ after after', Counterpart s t after after' → ∀ q,
    Option.Rel SameAnswer (m.ask after q) (t.ask after' q)

theorem answersLike_of_build {b : Blob} {heap other : Heap} {s t : Tree} (hm : m.tree = some s)
    (hs : (build b heap).result = .ok s) (ht : (build b other).result = .ok t)
    (hblocks : t.size < 2 ^ 32 ∨ heap.imprint = other.imprint) : m.AnswersLike t := by
  refine ⟨s, hm, fun after after' hafter q => ?_⟩
  rw [ask_eq, hm]
  exact (Build.alike_of_build hs ht hblocks).ask hafter q

theorem length_blocks (h : Keeps base subject m) :
    m.blocks.length = if m.stage = .ready then 1 else 0 := by
  unfold blocks
  cases hm : m.tree with
  | none =>
    have hstage : m.stage ≠ .ready := fun hready => by simpa [hm] using h.isSome_tree_iff.2 hready
    rw [if_neg hstage]
    rfl
  | some t =>
    rw [if_pos (h.isSome_tree_iff.1 (by rw [hm]; rfl))]
    rfl

/-- What is to be seen of a machine after the commands, and after one more. -/
structure Consistent (base : Heap) (commands : List Command) (m : Machine) : Prop
    extends Keeps base (lastSubject? commands) m where
  liveCount_eq : ∀ live, base.live? = some live →
    m.heap.liveCount = live.length + if m.stage = .ready then 1 else 0
  ask_eq_none : m.tree = none → ∀ after q, m.ask after q = none
  /-- Wherever the blob set up last is built, it is like the tree of the machine, and it is built
  where nothing is refused. Beyond 4 GiB the memory there has to hold records as the machine's. -/
  answersLike : m.tree.isSome → ∃ b, lastSubject? commands = some (.ok b) ∧
    (∀ other t, (build b other).result = .ok t →
      t.size < 2 ^ 32 ∨ other.imprint = base.imprint → m.AnswersLike t) ∧
    ∀ other : Heap, (∀ i, other.grants i = true) → ∃ t, (build b other).result = .ok t
  settled_setUp : ∀ buffer, Settled (m.setUp buffer)
  settled_setUpMemory : ∀ memory, Settled (m.setUpMemory memory)
  tearDown : m.tearDown.stage = .uninitialized ∧ m.tearDown.tree = none
  perform_ask : ∀ after q, m.perform (.ask after q) = m

/-- After any run a machine is uninitialized, ready or failed. It holds a tree if and only if it is
ready, and then the tree's block is all that it has taken from the heap and not given back; else it
has nothing. Without a tree it has no answer to a query, and with one it answers as a new tree of
the blob set up last. A set-up that comes next ends ready if it succeeds, and else failed without a
tree; a tear-down ends uninitialized without a tree, and a query changes nothing. -/
theorem consistent_run (heap : Heap) (commands : List Command) :
    Consistent heap commands ((start heap).run commands) := by
  have h := Keeps.run heap commands
  generalize (start heap).run commands = m at h ⊢
  refine ⟨h, ?_, ?_, ?_, settled_setUp m, settled_setUpMemory m, ⟨rfl, rfl⟩, fun _ _ => rfl⟩
  · intro live hlive
    have hafter : m.heap.live? = some (m.blocks ++ live) := by
      rw [h.leaves, hlive]
      rfl
    rw [Heap.liveCount_of_live? hafter, List.length_append, length_blocks h, Nat.add_comm]
  · intro hnone after q
    rw [ask_eq, hnone]
    rfl
  · intro hsome
    obtain ⟨s, hs⟩ := Option.isSome_iff_exists.1 hsome
    obtain ⟨b, earlier, hsubject, himprint, hbuild⟩ := h.built s hs
    refine ⟨b, hsubject, fun other t ht hblocks => ?_, fun other hgrants =>
      Build.exists_build_of_build hbuild hgrants⟩
    exact answersLike_of_build hs hbuild ht (hblocks.imp_right fun h => himprint.trans h.symm)

/-- A blob is set up, its replacement is refused while the heap grants nothing, and the blob is set
up again once the heap grants as before. -/
def sampleRun : List Command :=
  [.setUp ⟨0x1000, Blob.sample.bytes⟩, .ask none .root, .regrant fun _ => false,
    .setUp ⟨0x1000, Blob.sample.bytes⟩, .ask none .root, .setUpMemory none, .regrant fun _ => true,
    .setUpMemory (some ⟨0x1008, Blob.sample.bytes⟩)]

theorem consistent_run_sample :
    ((start (.fresh 0)).run (sampleRun.take 5)).stage = .failed ∧
      ((start (.fresh 0)).run (sampleRun.take 5)).ask none .root = none ∧
      ((start (.fresh 0)).run (sampleRun.take 5)).heap.liveCount = 0 ∧
      ((start (.fresh 0)).run sampleRun).heap.liveCount = 1 ∧
      ∃ b t, lastSubject? sampleRun = some (.ok b) ∧ (build b (.fresh 1)).result = .ok t ∧
        ((start (.fresh 0)).run sampleRun).AnswersLike t := by
  have hfailed : ((start (.fresh 0)).run (sampleRun.take 5)).stage = .failed := by decide +kernel
  have hready : ((start (.fresh 0)).run sampleRun).stage = .ready := by decide +kernel
  have early := consistent_run (.fresh 0) (sampleRun.take 5)
  have late := consistent_run (.fresh 0) sampleRun
  have hnone : ((start (.fresh 0)).run (sampleRun.take 5)).tree = none := by
    have hsome := early.isSome_tree_iff
    rw [hfailed] at hsome
    simpa using hsome
  have hzero := early.liveCount_eq [] rfl
  have hone := late.liveCount_eq [] rfl
  rw [hfailed] at hzero
  rw [hready] at hone
  obtain ⟨b, hb, hlike, hbuild⟩ := late.answersLike (late.isSome_tree_iff.2 hready)
  obtain ⟨t, ht⟩ := hbuild (.fresh 1) fun _ => rfl
  exact ⟨hfailed, early.ask_eq_none hnone none .root, hzero, hone, b, t, hb, ht,
    hlike _ t ht (.inr rfl)⟩

end Machine
end Devicetree
