import Devicetree.Proofs.Fidelity
import Devicetree.Proofs.Memory
import Devicetree.Proofs.Relatives

/-!
# Discipline

The measuring pass uses the heap as a stack. Token by token it keeps one temporary for each open
node, of a size that fits the node's path, and only the youngest is ever released. All temporaries
are gone before the block of the tree is requested, and that block is the last request.
-/

namespace Devicetree

namespace Outline

/-- The events that a token adds to an outline that has come to a place, and where it leaves the
outline, or how the outline ends at the token. -/
def advance (nameAt : UInt32 → Except Error Bytes) :
    Place → Token → Except Ending (List Event × Place)
  | place, .nop => .ok ([], place)
  | .start, .beginNode name => .ok ([.startNode name], .header)
  | .start, .endNode => .error .empty
  | .start, .property _ _ => .error .empty
  | .header, .property nameOffset value =>
    match nameAt nameOffset with
    | .error e => .error (.failed e)
    | .ok name => .ok ([.property name value], .header)
  | .header, .beginNode name => .ok ([.endProperties, .startNode name], .header)
  | .header, .endNode => .ok ([.endProperties, .endNode], .body)
  | .body, .property _ _ => .error (.failed .malformed)
  | .body, .beginNode name => .ok ([.startNode name], .header)
  | .body, .endNode => .ok ([.endNode], .body)

/-- The tokens before the one at `k` have been read. They gave the events and led to the place. -/
inductive Reads (nameAt : UInt32 → Except Error Bytes) (T : List Token) :
    Nat → List Event → Place → Prop
  | start : Reads nameAt T 0 [] .start
  | token {k : Nat} {t : Token} {first new : List Event} {place place' : Place} :
      Reads nameAt T k first place → T[k]? = some t → advance nameAt place t = .ok (new, place') →
      Reads nameAt T (k + 1) (first ++ new) place'

variable {nameAt : UInt32 → Except Error Bytes} {outcome : Except Error Unit} {T : List Token}
  {k : Nat} {t : Token} {first new : List Event} {place place' : Place} {ending : Ending}

theorem ofTokens_cons_of_ok (ha : advance nameAt place t = .ok (new, place'))
    (rest : List Token) :
    ofTokens nameAt outcome place (t :: rest) =
      ⟨new ++ (ofTokens nameAt outcome place' rest).events,
        (ofTokens nameAt outcome place' rest).ending⟩ := by
  unfold advance at ha
  split at ha
  case h_5 hat =>
    split at ha
    · contradiction
    · rename_i hname
      cases ha
      rw [ofTokens, hname]
      rfl
  case h_3 | h_4 | h_8 => contradiction
  all_goals
    cases ha
    rw [ofTokens]
    rfl

theorem ofTokens_cons_of_error (ha : advance nameAt place t = .error ending)
    (rest : List Token) : ofTokens nameAt outcome place (t :: rest) = stop ending := by
  unfold advance at ha
  split at ha
  case h_5 hat =>
    split at ha
    · rename_i hname
      cases ha
      rw [ofTokens, hname]
    · contradiction
  case h_3 | h_4 | h_8 =>
    cases ha
    rw [ofTokens]
  all_goals contradiction

/-- What has been read is the beginning of the outline, and the rest goes on from there. -/
theorem Reads.ofTokens_eq (h : Reads nameAt T k first place) :
    ofTokens nameAt outcome .start T =
      ⟨first ++ (ofTokens nameAt outcome place (T.drop k)).events,
        (ofTokens nameAt outcome place (T.drop k)).ending⟩ := by
  induction h with
  | start => rfl
  | @token k t first new place place' _ ht ha ih =>
    rw [ih, List.drop_eq_getElem?_toList_append, ht, Option.toList_some, List.singleton_append,
      ofTokens_cons_of_ok ha, List.append_assoc]

/-- Every token is read, up to one at which the outline ends. -/
theorem reads_or_ends (hk : k ≤ T.length) :
    (∃ first place, Reads nameAt T k first place) ∨
      ∃ j < k, ∃ first place t ending, Reads nameAt T j first place ∧ T[j]? = some t ∧
        advance nameAt place t = .error ending ∧
        ofTokens nameAt outcome .start T = ⟨first, ending⟩ := by
  induction k with
  | zero => exact .inl ⟨[], .start, .start⟩
  | succ k ih =>
    rcases ih (Nat.le_of_succ_le hk) with ⟨first, place, hreads⟩ | ⟨j, hj, hends⟩
    · have ht : T[k]? = some T[k] := List.getElem?_eq_getElem hk
      cases ha : advance nameAt place T[k] with
      | ok new => exact .inl ⟨_, _, hreads.token ht ha⟩
      | error ending =>
        refine .inr ⟨k, Nat.lt_succ_self k, first, place, _, ending, hreads, ht, ha, ?_⟩
        rw [hreads.ofTokens_eq, List.drop_eq_getElem_cons hk, ofTokens_cons_of_error ha]
        simp [stop]
    · exact .inr ⟨j, Nat.lt_succ_of_lt hj, hends⟩

def depth (d : Nat) : Event → Nat
  | .startNode _ => d + 1
  | .endNode => d - 1
  | .property _ _ | .endProperties => d

theorem foldl_depth_of_advance {stack : List Nat}
    (ha : advance nameAt place t = .ok (new, place')) :
    new.foldl depth stack.length = (Token.nest k stack t).length := by
  unfold advance at ha
  split at ha
  case h_5 =>
    split at ha
    · contradiction
    · cases ha
      rfl
  case h_3 | h_4 | h_8 => contradiction
  all_goals
    cases ha
    simp [depth, Token.nest]

theorem Reads.foldl_depth (h : Reads nameAt T k first place) :
    first.foldl depth 0 = (Token.openAt T k).length := by
  induction h with
  | start => rfl
  | token _ ht ha ih =>
    rw [List.foldl_append, ih, foldl_depth_of_advance ha, Token.openAt_succ ht]

theorem isStart_of_advance_endNode (ha : advance nameAt place .endNode = .ok (new, place')) :
    ∀ e ∈ new, e.isStart = false := by
  cases place with
  | start => contradiction
  | header =>
    cases ha
    simp [Event.isStart]
  | body =>
    cases ha
    simp [Event.isStart]

end Outline

def Blob.advance (b : Blob) :
    Outline.Place → Token → Except Outline.Ending (List Event × Outline.Place) :=
  Outline.advance fun off => b.stringAt off.toUInt64

def Blob.Reads (b : Blob) : Nat → List Event → Outline.Place → Prop :=
  Outline.Reads (fun off => b.stringAt off.toUInt64) b.tokens.tokens

/-! ## Temporaries -/

def Draft.paths (d : Draft) : List Bytes := d.nodes.map DraftNode.path

theorem Draft.paths_attach (nodes : List DraftNode) (p : Bytes × Bytes) :
    (attach nodes p).map DraftNode.path = nodes.map DraftNode.path := by
  have hpath : ∀ n : DraftNode,
      DraftNode.path { n with properties := n.properties ++ [p] } = id n.path := fun _ => rfl
  unfold attach
  rw [map_modify id hpath, List.modify_id]

theorem Draft.paths_step {d : Draft} {e : Event} (h : e.isStart = false) :
    (d.step e).paths = d.paths := by
  cases e with
  | startNode name => contradiction
  | property name value => exact paths_attach _ _
  | endProperties =>
    rw [step]
    split
    · rfl
    · exact paths_attach _ _
  | endNode => rfl

theorem Draft.paths_isPrefix (d : Draft) (events : List Event) :
    d.paths <+: (d.run events).paths := by
  induction events generalizing d with
  | nil => exact List.prefix_rfl
  | cons e rest ih =>
    refine List.IsPrefix.trans ?_ (ih (d.step e))
    cases e with
    | startNode name =>
      unfold paths step
      rw [List.map_append]
      exact List.prefix_append _ _
    | property name value => rw [paths_step rfl]
    | endProperties => rw [paths_step rfl]
    | endNode => rw [paths_step rfl]

def Heap.granted (deeds : List Heap.Action) : List Block :=
  deeds.filterMap fun
    | .granted block => some block
    | .refused _ | .released _ => none

def Heap.layouts (h : Heap) : List Layout := (granted h.trace).map Block.layout

namespace Heap

variable {h h' : Heap} {layout : Layout} {block : Block}

theorem granted_append (first rest : List Action) :
    granted (first ++ rest) = granted first ++ granted rest := List.filterMap_append

theorem layouts_allocate_some (ha : h.allocate layout = (h', some block)) :
    h'.layouts = h.layouts ++ [layout] := by
  obtain ⟨htrace, rfl⟩ := trace_allocate_some ha
  rw [layouts, htrace, granted_append, List.map_append]
  rfl

theorem layouts_allocate_none (ha : h.allocate layout = (h', none)) :
    h'.layouts = h.layouts := by
  rw [layouts, trace_allocate_none ha, granted_append, List.map_append]
  exact List.append_nil _

theorem layouts_release (h : Heap) (block : Block) : (h.release block).layouts = h.layouts := by
  rw [layouts, trace_release, granted_append, List.map_append]
  exact List.append_nil _

theorem layouts_releaseAll (h : Heap) (blocks : List Block) :
    (h.releaseAll blocks).layouts = h.layouts := by
  induction blocks generalizing h with
  | nil => rfl
  | cons block rest ih => exact (ih (h.release block)).trans (layouts_release h block)

theorem prefix_releaseAll (h : Heap) (blocks : List Block) :
    h.trace <+: (h.releaseAll blocks).trace := by
  induction blocks generalizing h with
  | nil => exact List.prefix_rfl
  | cons block rest ih =>
    have hone : h.trace <+: (h.release block).trace :=
      trace_release h block ▸ List.prefix_append _ _
    exact hone.trans (ih (h.release block))

end Heap

namespace Build
namespace Measuring

variable {m m' : Measuring} {heap heap' : Heap} {e : Event} {events first rest : List Event}

theorem length_openNodes_of_step (hs : m.step heap e = (heap', .ok m')) :
    m'.openNodes.length = Outline.depth m.openNodes.length e := by
  cases deed_of_step hs with
  | granted _ hopen => rw [hopen, List.length_cons, Outline.depth]
  | released hopen hrest => rw [hrest, hopen, List.length_cons, Outline.depth, Nat.add_sub_cancel]
  | idle hstart hend hopen =>
    rw [hopen]
    cases e with
    | startNode name => contradiction
    | property name value => rfl
    | endProperties => rfl
    | endNode => rw [hend rfl, Outline.depth, List.length_nil]

theorem length_openNodes_of_run (hr : (m.run heap events).fault = none) :
    (m.run heap events).last.openNodes.length =
      events.foldl Outline.depth m.openNodes.length := by
  induction events generalizing m heap with
  | nil => rfl
  | cons e rest ih =>
    rw [run] at hr
    split at hr
    · contradiction
    · rename_i heap' m' hs
      rw [run_cons_of_step hs, ih hr, length_openNodes_of_step hs, List.foldl_cons]

variable {d : Draft} {base : List Layout} {r : Except Fault Measuring} {f : Fault}

theorem prefix_step (hs : m.step heap e = (heap', r)) : heap.trace <+: heap'.trace := by
  cases deed_of_step hs with
  | granted ha _ => exact (Heap.trace_allocate_some ha).1 ▸ List.prefix_append _ _
  | refused ha => exact Heap.trace_allocate_none ha ▸ List.prefix_append _ _
  | unplaced => exact List.prefix_rfl
  | released _ _ => exact Heap.trace_release heap _ ▸ List.prefix_append _ _
  | idle _ _ _ => exact List.prefix_rfl

theorem prefix_run (m : Measuring) (heap : Heap) (events : List Event) :
    heap.trace <+: (m.run heap events).heap.trace := by
  induction events generalizing m heap with
  | nil => exact List.prefix_rfl
  | cons e rest ih =>
    rw [run]
    split
    · rename_i hs
      exact prefix_step hs
    · rename_i hs
      exact (prefix_step hs).trans (ih _ _)

theorem run_append_of_fault (hr : (m.run heap first).fault = none) :
    m.run heap (first ++ rest) = (m.run heap first).last.run (m.run heap first).heap rest := by
  induction first generalizing m heap with
  | nil => rfl
  | cons e first ih =>
    rw [run] at hr
    split at hr
    · contradiction
    · rename_i heap' m' hs
      rw [List.cons_append, run_cons_of_step hs, run_cons_of_step hs, ih hr]

theorem layouts_step (h : m.Follows d) (hs : m.step heap e = (heap', .ok m'))
    (hbase : heap.layouts = base ++ d.paths.map temporaryLayout) :
    heap'.layouts = base ++ (d.step e).paths.map temporaryLayout := by
  have hpath := h.path?_eq
  cases deed_of_step hs with
  | @granted name block heap' m' ha _ =>
    rw [hpath] at ha
    rw [Heap.layouts_allocate_some ha, hbase]
    simp [Draft.step, Draft.paths]
  | released _ _ => rw [Heap.layouts_release, hbase, Draft.paths_step rfl]
  | idle hstart _ _ => rw [hbase, Draft.paths_step hstart]

theorem layouts_step_error (hs : m.step heap e = (heap', .error f)) :
    heap'.layouts = heap.layouts := by
  cases deed_of_step hs with
  | refused ha => exact Heap.layouts_allocate_none ha
  | unplaced => rfl

theorem layouts_run (events : List Event) (h : m.Follows d)
    (hbase : heap.layouts = base ++ d.paths.map temporaryLayout) :
    ∃ first rest, events = first ++ rest ∧
      (m.run heap events).heap.layouts = base ++ (d.run first).paths.map temporaryLayout ∧
      ((m.run heap events).fault = none → rest = []) := by
  induction events generalizing m d heap with
  | nil => exact ⟨[], [], rfl, hbase, fun _ => rfl⟩
  | cons e rest ih =>
    rw [run]
    split
    · rename_i hs
      exact ⟨[], e :: rest, rfl, (layouts_step_error hs).trans hbase, by simp⟩
    · rename_i heap' m' hs
      obtain ⟨first, later, rfl, hlayouts, hnone⟩ :=
        ih (kept_of_step h hs).follows (layouts_step h hs hbase)
      exact ⟨e :: first, later, rfl, hlayouts, hnone⟩

/-- Without an open node, nothing but the start of one touches the heap. -/
theorem heap_run_of_openNodes_eq_nil (hopen : m.openNodes = [])
    (hstart : ∀ e ∈ events, e.isStart = false) : (m.run heap events).heap = heap := by
  induction events generalizing m with
  | nil => rfl
  | cons e rest ih =>
    have hrest := fun e he => hstart e (List.mem_cons_of_mem _ he)
    rw [run]
    cases hs : m.step heap e with
    | mk heap' r =>
      cases deed_of_step hs with
      | granted _ _ => exact absurd (hstart _ List.mem_cons_self) (by simp [Event.isStart])
      | refused _ => exact absurd (hstart _ List.mem_cons_self) (by simp [Event.isStart])
      | unplaced => rfl
      | released hsome _ => simp [hopen] at hsome
      | idle _ _ hkept => exact ih (hkept.trans hopen) hrest

end Measuring

variable {b : Blob} {heap : Heap} {deeds : List Heap.Action} {size : Nat} {t : Tree}

/-- The temporaries of a measuring pass are those of the nodes that it gets to. -/
theorem layouts_measure (b : Blob) (heap : Heap) :
    ∃ first rest, b.outline.events = first ++ rest ∧
      (measure b heap).1.layouts = heap.layouts ++
        (Draft.start.run first).paths.map temporaryLayout ∧
      ∀ size, (measure b heap).2 = .ok size → rest = [] := by
  obtain ⟨first, rest, hsplit, hlayouts, hnone⟩ :=
    Measuring.layouts_run b.outline.events Measuring.follows_start
      (List.append_nil heap.layouts).symm
  have hheap : (measure b heap).1 = (Measuring.start.run heap b.outline.events).heap.releaseAll
      ((Measuring.start.run heap b.outline.events).last.openNodes.map Temporary.block) := by
    unfold measure
    dsimp only
    split <;> rfl
  refine ⟨first, rest, hsplit, ?_, ?_⟩
  · rw [hheap, Heap.layouts_releaseAll, hlayouts]
  · intro size hm
    unfold measure at hm
    dsimp only at hm
    split at hm
    · contradiction
    · exact hnone (Option.or_eq_none_iff.1 ‹_›).1

theorem prefix_measure {first rest : List Event} (hsplit : b.outline.events = first ++ rest)
    (hr : (Measuring.start.run heap first).fault = none) :
    (Measuring.start.run heap first).heap.trace <+: (measure b heap).1.trace := by
  have hrun : (Measuring.start.run heap first).heap.trace <+:
      (Measuring.start.run heap b.outline.events).heap.trace := by
    rw [hsplit, Measuring.run_append_of_fault hr]
    exact Measuring.prefix_run _ _ _
  unfold measure
  dsimp only
  split
  · exact hrun.trans (Heap.prefix_releaseAll _ _)
  · exact hrun.trans (Heap.prefix_releaseAll _ _)

theorem paths_of_build (h : (build b heap).result = .ok t) :
    t.nodes.map Node.pathBytes = (Draft.start.run b.outline.events).paths := by
  obtain ⟨hlinked, -, -⟩ := linked_of_build h
  obtain ⟨hdraft, -, -⟩ := draft_of_build h
  rw [Draft.paths, ← hdraft, List.map_map, Tree.nodes_eq_places hlinked]
  apply List.ext_getElem?
  intro i
  rw [List.getElem?_map, List.getElem?_map, Tree.getElem?_places, Tree.node?]
  split
  · rename_i hi
    rw [List.getElem?_eq_getElem hi]
    rfl
  · rename_i hi
    rw [List.getElem?_eq_none (Nat.not_lt.1 hi)]
    rfl

/-- The deeds are those of the measuring pass. It uses the heap as a stack, and so does a build. -/
structure Disciplined (b : Blob) (heap : Heap) (deeds : List Heap.Action) : Prop where
  trace_measure : (measure b heap).1.trace = heap.trace ++ deeds
  /-- Looking for the layout alone is no different. -/
  trace_layout : (layout b heap).1.trace = heap.trace ++ deeds
  /-- Only the youngest live block is ever released, and none is live in the end. -/
  nests : Heap.Nests [] deeds []
  /-- The blocks are for the first nodes of the blob, in order. -/
  temporaries : (Heap.granted deeds).map Block.layout <+:
    (Draft.start.run b.outline.events).paths.map fun path => ⟨32 + path.length, 8⟩
  /-- Every token is read, up to one at which the outline ends. -/
  reads : ∀ k ≤ b.tokens.tokens.length, (∃ first place, b.Reads k first place) ∨
    ∃ j < k, ∃ first place t ending, b.Reads j first place ∧ b.tokens.tokens[j]? = some t ∧
      b.advance place t = .error ending ∧ b.outline = ⟨first, ending⟩
  /-- After each token there are as many live blocks as open nodes. -/
  live : ∀ k first place, b.Reads k first place →
    (Measuring.start.run heap first).fault = none →
    ∃ now later live, deeds = now ++ later ∧
      (Measuring.start.run heap first).heap.trace = heap.trace ++ now ∧
      Heap.Nests [] now live ∧ live.length = (Token.openAt b.tokens.tokens k).length
  /-- An end token that ends nothing releases nothing. -/
  strayEnd : ∀ k first place new place', b.Reads k first place →
    b.tokens.tokens[k]? = some .endNode → Token.openAt b.tokens.tokens k = [] →
    b.advance place .endNode = .ok (new, place') →
    (Measuring.start.run heap first).fault = none →
    (Measuring.start.run heap (first ++ new)).heap = (Measuring.start.run heap first).heap
  /-- Nothing is live where a build fails, be it in the measuring pass or for want of the block. -/
  failed : ∀ e, (build b heap).result = .error e →
    ((∃ f, (measure b heap).2 = .error f) ∧ (build b heap).heap.trace = heap.trace ++ deeds) ∨
    ∃ size, (measure b heap).2 = .ok size ∧
      (build b heap).heap.trace = heap.trace ++ deeds ++ [.refused ⟨size + 4, 8⟩]
  /-- A tree takes a temporary for each node and then its block, and nothing else. -/
  built : ∀ t, (build b heap).result = .ok t →
    (build b heap).heap.trace = heap.trace ++ deeds ++ [.granted t.block] ∧
      t.block.layout = ⟨t.size + 4, 8⟩ ∧ (Heap.granted deeds).length = t.nodeCount ∧
      (Heap.granted deeds).map Block.layout = t.nodes.map fun n => ⟨32 + n.pathBytes.length, 8⟩

theorem layouts_eq_append {heap' : Heap} (h : heap'.trace = heap.trace ++ deeds) :
    heap'.layouts = heap.layouts ++ (Heap.granted deeds).map Block.layout := by
  rw [Heap.layouts, h, Heap.granted_append, List.map_append]
  rfl

theorem live_of_reads {k : Nat} {first : List Event} {place : Outline.Place}
    (htrace : (measure b heap).1.trace = heap.trace ++ deeds) (hreads : b.Reads k first place)
    (hr : (Measuring.start.run heap first).fault = none) :
    ∃ now later live, deeds = now ++ later ∧
      (Measuring.start.run heap first).heap.trace = heap.trace ++ now ∧
      Heap.Nests [] now live ∧ live.length = (Token.openAt b.tokens.tokens k).length := by
  have hstacks : heap.Stacks (Measuring.start.run heap first).last.blocks
      (Measuring.start.run heap first).heap := Measuring.stacks_run heap.stacks_refl
  obtain ⟨now, hnow, hnests⟩ := hstacks
  obtain ⟨later, hlater⟩ := prefix_measure (congrArg Outline.events hreads.ofTokens_eq) hr
  refine ⟨now, later, _, ?_, hnow, hnests, ?_⟩
  · rw [hnow, htrace, List.append_assoc] at hlater
    exact (List.append_cancel_left hlater).symm
  · rw [Measuring.blocks, List.length_map, Measuring.length_openNodes_of_run hr]
    exact hreads.foldl_depth

/-- Whatever the blob and whatever the heap grants, memory is taken and given back like a stack. -/
theorem exists_disciplined (b : Blob) (heap : Heap) : ∃ deeds, Disciplined b heap deeds := by
  obtain ⟨deeds, htrace, hnests⟩ := stacks_measure b heap
  obtain ⟨first, rest, hsplit, hlayouts, hall⟩ := layouts_measure b heap
  rw [layouts_eq_append htrace] at hlayouts
  have hgranted := List.append_cancel_left hlayouts
  refine ⟨deeds, ?_⟩
  constructor
  case trace_measure => exact htrace
  case trace_layout => exact htrace
  case nests => exact hnests
  case temporaries =>
    rw [hgranted, hsplit, Draft.run_append]
    exact (Draft.paths_isPrefix _ rest).map temporaryLayout
  case reads => exact fun k hk => Outline.reads_or_ends hk
  case live => exact fun k first place hreads hr => live_of_reads htrace hreads hr
  case strayEnd =>
    intro k first place new place' hreads ht hopen ha hr
    rw [Measuring.run_append_of_fault hr]
    apply Measuring.heap_run_of_openNodes_eq_nil
    · rw [← List.length_eq_zero_iff, Measuring.length_openNodes_of_run hr]
      exact hreads.foldl_depth.trans (congrArg List.length hopen)
    · exact Outline.isStart_of_advance_endNode ha
  case failed =>
    intro e he
    cases hm : (measure b heap).2 with
    | error f =>
      refine .inl ⟨⟨f, rfl⟩, ?_⟩
      rw [(build_of_measure_error hm).2, htrace]
    | ok size =>
      cases ha : (measure b heap).1.allocate ⟨size + markSize, recordAlign⟩ with
      | mk heap' answer =>
        cases answer with
        | none =>
          refine .inr ⟨size, rfl, ?_⟩
          rw [(build_of_refused hm ha).2, Heap.trace_allocate_none ha, htrace]
          rfl
        | some block =>
          obtain ⟨-, t, -, -, ht, -⟩ := build_of_measure hm ha
          rw [ht] at he
          contradiction
  case built =>
    intro t ht
    obtain ⟨-, -, hm, -⟩ := populate_of_build ht
    obtain ⟨hlinked, -, hcount⟩ := linked_of_build ht
    obtain rfl := hall _ hm
    rw [List.append_nil] at hsplit
    have hlayouts : (Heap.granted deeds).map Block.layout =
        t.nodes.map fun n => temporaryLayout n.pathBytes := by
      rw [hgranted, ← hsplit, ← paths_of_build ht, List.map_map]
      rfl
    have hlength := congrArg List.length hlayouts
    rw [List.length_map, List.length_map, Tree.nodes_eq_places hlinked, Tree.length_places,
      ← hcount] at hlength
    obtain ⟨hgrant, hlayout⟩ := Heap.trace_allocate_some (allocate_of_build ht)
    refine ⟨?_, hlayout, hlength, hlayouts⟩
    rw [hgrant, htrace]

/-- The root, its child and a second top-level node behind an end token too many. -/
theorem exists_disciplined_sample :
    ∃ deeds, Disciplined .sample (.fresh 0) deeds ∧
      (Heap.granted deeds).map Block.layout = [⟨33, 8⟩, ⟨36, 8⟩, ⟨34, 8⟩] ∧
      ∃ t, (build .sample (.fresh 0)).result = .ok t ∧
        (build .sample (.fresh 0)).heap.trace = deeds ++ [.granted t.block] := by
  obtain ⟨deeds, h⟩ := exists_disciplined .sample (.fresh 0)
  obtain ⟨t, ht, -⟩ := exists_build_sample
  have htrace : deeds = (measure .sample (.fresh 0)).1.trace := h.trace_measure.symm
  have hlayouts : (Heap.granted (measure .sample (.fresh 0)).1.trace).map Block.layout =
      [⟨33, 8⟩, ⟨36, 8⟩, ⟨34, 8⟩] := by decide +kernel
  exact ⟨deeds, h, htrace ▸ hlayouts, t, ht, (h.built t ht).1⟩

end Build
end Devicetree
