import Devicetree.Proofs.Passes

/-!
# Memory

A block is live from its grant to its release. What a part of a program does to memory is the
list of blocks that it leaves live: the measuring pass leaves none, whether or not it succeeds,
and a build leaves the block of its tree or nothing. On the way there only the youngest live block
is ever released.
-/

namespace Devicetree
namespace Heap

/-- The blocks that were granted and not released, the youngest first. Releasing anything else
is an error. The actions are given with the last one first. -/
def liveAfter? : List Action → Option (List Block)
  | [] => some []
  | .granted block :: earlier => (liveAfter? earlier).map (block :: ·)
  | .refused _ :: earlier => liveAfter? earlier
  | .released block :: earlier =>
    (liveAfter? earlier).bind fun live => if block ∈ live then some (live.erase block) else none

def live? (h : Heap) : Option (List Block) := liveAfter? h.history

/-- Between the two heaps, the given blocks became live and stayed so, the youngest first. All
others that were granted in between are released, and only those. -/
def Leaves (h : Heap) (blocks : List Block) (h' : Heap) : Prop :=
  h'.live? = h.live?.map (blocks ++ ·)

variable {h h' : Heap} {block : Block} {blocks live : List Block} {layout : Layout}

/-- Every grant is of a block that is live or was released once. -/
theorem grantCount_of_live? (hlive : h.live? = some live) :
    h.grantCount = h.releaseCount + live.length := by
  unfold grantCount releaseCount
  unfold live? at hlive
  generalize h.history = history at hlive ⊢
  induction history generalizing live with
  | nil =>
    cases hlive
    rfl
  | cons action earlier ih =>
    cases action with
    | granted block =>
      obtain ⟨before, hbefore, rfl⟩ := Option.map_eq_some_iff.1 hlive
      have := ih hbefore
      simp
      omega
    | refused layout =>
      have := ih hlive
      simpa using this
    | released block =>
      obtain ⟨before, hbefore, herase⟩ := Option.bind_eq_some_iff.1 hlive
      have := ih hbefore
      split at herase
      · rename_i hmem
        cases herase
        have := List.length_erase_of_mem hmem
        have := List.length_pos_of_mem hmem
        simp
        omega
      · contradiction

theorem liveCount_of_live? (hlive : h.live? = some live) : h.liveCount = live.length := by
  rw [liveCount, grantCount_of_live? hlive, Nat.add_sub_cancel_left]

theorem leaves_refl (h : Heap) : h.Leaves [] h := by
  unfold Leaves
  cases h.live? <;> rfl

theorem Leaves.trans {later : List Block} {h'' : Heap} (hl : h.Leaves blocks h')
    (hl' : h'.Leaves later h'') : h.Leaves (later ++ blocks) h'' := by
  unfold Leaves at *
  rw [hl', hl, Option.map_map]
  exact congrArg (Option.map · h.live?) (funext fun live => (List.append_assoc _ _ _).symm)

theorem Leaves.release (hl : h.Leaves (block :: blocks) h') :
    h.Leaves blocks (h'.release block) := by
  have hlive : (h'.release block).live? =
      h'.live?.bind fun live => if block ∈ live then some (live.erase block) else none := rfl
  rw [Leaves, hlive, hl]
  cases h.live? with
  | none => rfl
  | some live => simp

/-! ## Last in, first out -/

/-- The actions, in order, make one list of live blocks another, both with the youngest block
first. Each release is of the youngest one. -/
inductive Nests : List Block → List Action → List Block → Prop
  | nil {live : List Block} : Nests live [] live
  | granted {block : Block} {live last : List Block} {rest : List Action} :
      Nests (block :: live) rest last → Nests live (.granted block :: rest) last
  | refused {layout : Layout} {live last : List Block} {rest : List Action} :
      Nests live rest last → Nests live (.refused layout :: rest) last
  | released {block : Block} {live last : List Block} {rest : List Action} :
      Nests live rest last → Nests (block :: live) (.released block :: rest) last

theorem Nests.append {first rest : List Action} {mid last : List Block}
    (hfirst : Nests live first mid) (hrest : Nests mid rest last) :
    Nests live (first ++ rest) last := by
  induction hfirst with
  | nil => exact hrest
  | granted _ ih => exact .granted (ih hrest)
  | refused _ ih => exact .refused (ih hrest)
  | released _ ih => exact .released (ih hrest)

/-- Between the two heaps each release was of the youngest block granted in between and still
live. The blocks that are left are given, the youngest first. -/
def Stacks (h : Heap) (blocks : List Block) (h' : Heap) : Prop :=
  ∃ deeds, h'.trace = h.trace ++ deeds ∧ Nests [] deeds blocks

theorem stacks_refl (h : Heap) : h.Stacks [] h := ⟨[], (List.append_nil _).symm, .nil⟩

theorem Stacks.snoc {action : Action} {blocks' : List Block} {h'' : Heap}
    (hs : h.Stacks blocks h') (htrace : h''.trace = h'.trace ++ [action])
    (hn : Nests blocks [action] blocks') : h.Stacks blocks' h'' := by
  obtain ⟨deeds, hdeeds, hnests⟩ := hs
  refine ⟨deeds ++ [action], ?_, hnests.append hn⟩
  rw [htrace, hdeeds, List.append_assoc]

theorem trace_allocate_some (ha : h.allocate layout = (h', some block)) :
    h'.trace = h.trace ++ [.granted block] ∧ block.layout = layout := by
  unfold allocate at ha
  split at ha
  · cases ha
    exact ⟨List.reverse_cons, rfl⟩
  · simp at ha

theorem trace_allocate_none (ha : h.allocate layout = (h', none)) :
    h'.trace = h.trace ++ [.refused layout] := by
  unfold allocate at ha
  split at ha
  · simp at ha
  · cases ha
    exact List.reverse_cons

theorem trace_release (h : Heap) (block : Block) :
    (h.release block).trace = h.trace ++ [.released block] := List.reverse_cons

theorem Stacks.allocate_some {h'' : Heap} (hs : h.Stacks blocks h')
    (ha : h'.allocate layout = (h'', some block)) : h.Stacks (block :: blocks) h'' :=
  hs.snoc (trace_allocate_some ha).1 (.granted .nil)

theorem Stacks.allocate_none {h'' : Heap} (hs : h.Stacks blocks h')
    (ha : h'.allocate layout = (h'', none)) : h.Stacks blocks h'' :=
  hs.snoc (trace_allocate_none ha) (.refused .nil)

theorem Stacks.release (hs : h.Stacks (block :: blocks) h') :
    h.Stacks blocks (h'.release block) :=
  hs.snoc (trace_release h' block) (.released .nil)

theorem Stacks.releaseAll (hs : h.Stacks (blocks ++ live) h') :
    h.Stacks live (h'.releaseAll blocks) := by
  induction blocks generalizing h' with
  | nil => exact hs
  | cons block rest ih => exact ih hs.release

/-- What was live before stays live below the blocks that come and go. -/
theorem Nests.liveAfter? {deeds history : List Action} {base : Option (List Block)}
    (hn : Nests live deeds blocks) (hlive : Heap.liveAfter? history = base.map (live ++ ·)) :
    Heap.liveAfter? (deeds.reverse ++ history) = base.map (blocks ++ ·) := by
  induction hn generalizing history with
  | nil => exact hlive
  | granted _ ih =>
    rw [List.reverse_cons, List.append_assoc]
    apply ih
    rw [List.singleton_append, Heap.liveAfter?, hlive, Option.map_map]
    rfl
  | refused _ ih =>
    rw [List.reverse_cons, List.append_assoc]
    exact ih hlive
  | released _ ih =>
    rw [List.reverse_cons, List.append_assoc]
    apply ih
    rw [List.singleton_append, Heap.liveAfter?, hlive]
    cases base with
    | none => rfl
    | some base => simp

theorem Stacks.leaves (hs : h.Stacks blocks h') : h.Leaves blocks h' := by
  obtain ⟨deeds, hdeeds, hnests⟩ := hs
  have hhistory : h'.history = deeds.reverse ++ h.history := by
    rw [← List.reverse_inj, List.reverse_append, List.reverse_reverse]
    exact hdeeds
  unfold Leaves live?
  rw [hhistory]
  apply hnests.liveAfter?
  cases liveAfter? h.history <;> rfl

end Heap

namespace Build

def temporaryLayout (path : Bytes) : Layout := ⟨temporarySize + path.length, recordAlign⟩

namespace Measuring

variable {m m' : Measuring} {base heap heap' : Heap} {e : Event} {events : List Event}
  {r : Except Fault Measuring} {length : Nat}

def blocks (m : Measuring) : List Block := m.openNodes.map Temporary.block

/-- What a step of the measuring pass does to memory. The start of a node asks for a temporary, the
end of an open node releases that node's, and nothing else touches the heap. -/
inductive Deed (m : Measuring) (heap : Heap) : Event → Heap → Except Fault Measuring → Prop
  | granted {name : Bytes} {block : Block} {heap' : Heap} {m' : Measuring} :
      heap.allocate (temporaryLayout (Path.join m.path? name)) = (heap', some block) →
      m'.openNodes = ⟨Path.join m.path? name, block⟩ :: m.openNodes →
      Deed m heap (.startNode name) heap' (.ok m')
  | refused {name : Bytes} {heap' : Heap} {f : Fault} :
      heap.allocate (temporaryLayout (Path.join m.path? name)) = (heap', none) →
      Deed m heap (.startNode name) heap' (.error f)
  /-- The record cannot be placed, so no memory is asked for. -/
  | unplaced {e : Event} {f : Fault} : Deed m heap e heap (.error f)
  | released {t : Temporary} {rest : List Temporary} {m' : Measuring} :
      m.openNodes = t :: rest → m'.openNodes = rest →
      Deed m heap .endNode (heap.release t.block) (.ok m')
  | idle {e : Event} {m' : Measuring} : e.isStart = false → (e = .endNode → m.openNodes = []) →
      m'.openNodes = m.openNodes → Deed m heap e heap (.ok m')

theorem deed_of_startNode {name : Bytes} (hs : m.startNode heap name = (heap', r)) :
    m.Deed heap (.startNode name) heap' r := by
  unfold startNode at hs
  dsimp only at hs
  split at hs
  · cases hs
    exact .unplaced
  · rename_i m₁ hr
    obtain ⟨i, c, -, rfl⟩ := reserve_eq_ok hr
    split at hs
    · cases hs
      exact .unplaced
    · rename_i layout hlayout
      obtain rfl : temporaryLayout (Path.join m.path? name) = layout := by
        unfold Layout.of? at hlayout
        split at hlayout
        · exact Option.some.inj hlayout
        · contradiction
      split at hs
      · rename_i ha
        cases hs
        exact .refused ha
      · rename_i ha
        cases hs
        exact .granted ha rfl

theorem deed_of_reserve {m₁ : Measuring} (hr : m₁.reserve length = r)
    (hopen : m₁.openNodes = m.openNodes) (hstart : e.isStart = false) (hend : e ≠ .endNode) :
    m.Deed heap e heap r := by
  cases r with
  | error f => exact .unplaced
  | ok m' =>
    obtain ⟨i, c, -, rfl⟩ := reserve_eq_ok hr
    exact .idle hstart (fun h => absurd h hend) hopen

theorem deed_of_step (hs : m.step heap e = (heap', r)) : m.Deed heap e heap' r := by
  cases e with
  | startNode name => exact deed_of_startNode hs
  | property name value =>
    obtain ⟨rfl, hadd⟩ := Prod.mk.inj hs
    unfold addProperty at hadd
    exact deed_of_reserve hadd rfl rfl (by simp)
  | endProperties =>
    obtain ⟨rfl, hend⟩ := Prod.mk.inj hs
    unfold endProperties at hend
    split at hend
    · cases hend
      exact .idle rfl (by simp) rfl
    · exact deed_of_reserve hend rfl rfl (by simp)
  | endNode =>
    simp only [step, endNode] at hs
    split at hs
    · rename_i hopen
      cases hs
      exact .idle rfl (fun _ => hopen) rfl
    · rename_i t rest hopen
      cases hs
      exact .released hopen rfl

/-- The live blocks are those of the open nodes, also where a step fails and the pass stays at its
last good state. -/
theorem stacks_step (hl : base.Stacks m.blocks heap) (hs : m.step heap e = (heap', r)) :
    base.Stacks (r.toOption.getD m).blocks heap' := by
  cases deed_of_step hs with
  | granted ha hopen =>
    rw [Except.toOption, Option.getD_some, blocks, hopen]
    exact hl.allocate_some ha
  | refused ha => exact hl.allocate_none ha
  | unplaced => exact hl
  | released hopen hrest =>
    rw [Except.toOption, Option.getD_some, blocks, hrest]
    rw [blocks, hopen] at hl
    exact hl.release
  | idle _ _ hopen =>
    rw [Except.toOption, Option.getD_some, blocks, hopen]
    exact hl

theorem stacks_run (hl : base.Stacks m.blocks heap) :
    base.Stacks (m.run heap events).last.blocks (m.run heap events).heap := by
  induction events generalizing m heap with
  | nil => exact hl
  | cons e rest ih =>
    rw [run]
    split
    · rename_i hs
      exact stacks_step hl hs
    · rename_i hs
      exact ih (stacks_step hl hs)

end Measuring

variable {b : Blob} {heap : Heap}

theorem stacks_measure (b : Blob) (heap : Heap) : heap.Stacks [] (measure b heap).1 := by
  have hrun : heap.Stacks (Measuring.start.run heap b.outline.events).last.blocks
      (Measuring.start.run heap b.outline.events).heap := Measuring.stacks_run heap.stacks_refl
  rw [← List.append_nil (Measuring.blocks _)] at hrun
  unfold measure
  dsimp only
  split
  · exact hrun.releaseAll
  · exact hrun.releaseAll

def liveBlocks (result : Except Error Tree) : List Block :=
  (result.toOption.map Tree.block).toList

theorem stacks_finish {heap' : Heap} {block : Block} (size : Nat) (journal : List Entry)
    (hl : heap.Stacks [block] heap') :
    heap.Stacks (liveBlocks (finish b heap' block size journal).result)
      (finish b heap' block size journal).heap := by
  unfold finish
  dsimp only
  split
  · exact hl.release
  · split
    · exact hl.release
    · rename_i t hverify
      unfold verify at hverify
      split at hverify
      · cases hverify
        exact hl
      · contradiction

/-- A build leaves the block of its tree live, and nothing else. -/
theorem stacks_build (b : Blob) (heap : Heap) :
    heap.Stacks (liveBlocks (build b heap).result) (build b heap).heap := by
  have hmeasure := stacks_measure b heap
  unfold build
  split
  · rename_i hm
    rw [hm] at hmeasure
    exact hmeasure
  · rename_i hm
    rw [hm] at hmeasure
    dsimp only
    split
    · exact hmeasure
    · split
      · rename_i ha
        exact hmeasure.allocate_none ha
      · rename_i ha
        exact stacks_finish _ _ (hmeasure.allocate_some ha)

theorem leaves_build (b : Blob) (heap : Heap) :
    heap.Leaves (liveBlocks (build b heap).result) (build b heap).heap :=
  (stacks_build b heap).leaves

end Build
end Devicetree
