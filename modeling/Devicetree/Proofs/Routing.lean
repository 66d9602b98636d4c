import Devicetree.Interrupt
import Devicetree.Proofs.Relatives
import Mathlib.Data.Finset.Card

/-!
# Interrupt routes

A node's interrupts go from node to node, and where they stop is said of the walk that is never cut
off. A walk that is longer than the tree has nodes comes to some node again, and goes round from
there, so cutting it off after as many steps hides no controller and only stops walks that would
never end.
-/

namespace Devicetree

theorem findSome?_filterMap_cons {α β γ : Type} (f : α → Option β) (g : β → Option γ) (a : α)
    (l : List α) : ((a :: l).filterMap f).findSome? g =
      ((f a).bind g).or ((l.filterMap f).findSome? g) := by
  rw [List.filterMap_cons]
  cases f a with
  | none => rfl
  | some b =>
    simp only [List.findSome?_cons, Option.bind_some]
    cases g b <;> rfl

namespace Node

def firstCell? (n : Node) (key : String) : Option UInt32 :=
  match n.property? key with
  | none => none
  | some p =>
    if p.value.length < 4 then none else some (UInt32.ofNat (Bytes.bigEndian (p.value.take 4)))

def referent? (n : Node) (key : String) : Option Node :=
  (n.firstCell? key).bind (n.tree.findByPhandle none)

/-- The node that a node's interrupts go to: the first that is named, or else the parent. -/
def successor? (n : Node) : Option Node :=
  (n.referent? "interrupt-parent").or ((n.referent? "interrupt-extended").or
    ((n.referent? "interrupts-extended").or n.parent))

def reached? (n : Node) : Nat → Option Node
  | 0 => some n
  | k + 1 => (n.reached? k).bind successor?

/-- The walk goes on after the given number of steps: it is at a node, which is no controller. -/
def Passes (n : Node) (k : Nat) : Prop := ∃ m, n.reached? k = some m ∧ m.isController = false

/-- The walk meets the controller, and none before. -/
def Meets (n c : Node) : Prop :=
  ∃ k, (∀ j < k, n.Passes (j + 1)) ∧ n.reached? (k + 1) = some c ∧ c.isController = true

/-- The walk meets no controller before some node without a parent from where no handle leads on. -/
def RunsOut (n : Node) : Prop :=
  ∃ k m, (∀ j < k, n.Passes (j + 1)) ∧ n.reached? k = some m ∧ m.successor? = none

/-- The walk meets no controller and does not run out. -/
def IsEndless (n : Node) : Prop := ∀ k, n.Passes (k + 1)

variable {n c m : Node} {key : String} {steps k : Nat}

theorem readCell_eq (n : Node) (key : String) : n.readCell key = n.firstCell? key := by
  have hoff : Word.mul? 0 4 = some 0 := by decide
  have hstop : Word.add? 0 4 = some 4 := by decide
  unfold readCell readCellIndex firstCell?
  cases n.property? key with
  | none => simp [hoff]
  | some p =>
    by_cases hlength : p.value.length < 4
    · have hle : ¬4 ≤ p.value.length := Nat.not_le.2 hlength
      simp [hoff, hstop, Value.cellAt, Bytes.word32?, Bytes.slice?, hlength, hle, Except.toOption]
    · have hle : 4 ≤ p.value.length := Nat.not_lt.1 hlength
      simp [hoff, hstop, Value.cellAt, Bytes.word32?, Bytes.slice?, hlength, hle, Except.toOption]

theorem interruptStep_eq (n : Node) : n.interruptStep = n.successor? := by
  have hread : n.readCell = n.firstCell? := funext n.readCell_eq
  simp only [interruptStep, interruptParentKeys, hread, findSome?_filterMap_cons,
    List.filterMap_nil, List.findSome?_nil, Option.or_none, Option.or_assoc]
  rfl

theorem reached?_succ (n : Node) (k : Nat) :
    n.reached? (k + 1) = n.successor?.bind fun m => m.reached? k := by
  induction k with
  | zero => simp [reached?]
  | succ k ih =>
    rw [reached?, ih, Option.bind_assoc]
    rfl

theorem reached?_add (n : Node) (j k : Nat) :
    n.reached? (j + k) = (n.reached? j).bind fun m => m.reached? k := by
  induction k with
  | zero => simp [reached?]
  | succ k ih =>
    rw [← Nat.add_assoc, reached?, ih, Option.bind_assoc]
    rfl

theorem passes_zero (hm : m.isController = false) : m.Passes 0 := ⟨m, rfl, hm⟩

/-- What a walk that is cut off after some steps says of the one that is not. -/
def Route.Holds (n : Node) (steps : Nat) : Route → Prop
  | .controller c => ∃ k < steps, (∀ j < k, n.Passes (j + 1)) ∧ n.reached? (k + 1) = some c ∧
      c.isController = true
  | .lost => ∃ k < steps, (∀ j < k, n.Passes (j + 1)) ∧ n.reached? (k + 1) = none
  | .endless => ∀ k < steps, n.Passes (k + 1)

theorem Route.Holds.step {r : Route} (hnext : n.successor? = some m) (hm : m.isController = false)
    (h : r.Holds m steps) : r.Holds n (steps + 1) := by
  have hreached : ∀ k, n.reached? (k + 1) = m.reached? k := by
    intro k
    rw [reached?_succ, hnext, Option.bind_some]
  have hpasses : ∀ k, (∀ j < k, m.Passes (j + 1)) → ∀ j < k + 1, n.Passes (j + 1) := by
    intro k hk j hj
    rw [Passes, hreached]
    cases j with
    | zero => exact passes_zero hm
    | succ j => exact hk j (Nat.lt_of_succ_lt_succ hj)
  cases r with
  | controller c =>
    obtain ⟨k, hk, hall, hc, hcontroller⟩ := h
    exact ⟨k + 1, Nat.succ_lt_succ hk, hpasses k hall, (hreached _).trans hc, hcontroller⟩
  | lost =>
    obtain ⟨k, hk, hall, hnone⟩ := h
    exact ⟨k + 1, Nat.succ_lt_succ hk, hpasses k hall, (hreached _).trans hnone⟩
  | endless => exact hpasses steps h

theorem holds_routeWithin (n : Node) (steps : Nat) : (routeWithin steps n).Holds n steps := by
  induction steps generalizing n with
  | zero => exact nofun
  | succ steps ih =>
    rw [routeWithin, n.interruptStep_eq]
    cases hnext : n.successor? with
    | none => exact ⟨0, Nat.succ_pos _, nofun, by simp [reached?, hnext]⟩
    | some m =>
      cases hm : m.isController with
      | true =>
        simp only [hm, if_true]
        exact ⟨0, Nat.succ_pos _, nofun, by simp [reached?, hnext], hm⟩
      | false =>
        simp only [hm, Bool.false_eq_true, if_false]
        exact (ih m).step hnext hm

def Names (n m : Node) : Prop := ∃ key ∈ interruptParentKeys, n.referent? key = some m

theorem names_or_parent_of_successor? (hm : n.successor? = some m) :
    n.Names m ∨ n.parent = some m := by
  unfold successor? at hm
  rcases Option.or_eq_some_iff.1 hm with hm | ⟨-, hm⟩
  · exact .inl ⟨"interrupt-parent", by simp [interruptParentKeys], hm⟩
  · rcases Option.or_eq_some_iff.1 hm with hm | ⟨-, hm⟩
    · exact .inl ⟨"interrupt-extended", by simp [interruptParentKeys], hm⟩
    · rcases Option.or_eq_some_iff.1 hm with hm | ⟨-, hm⟩
      · exact .inl ⟨"interrupts-extended", by simp [interruptParentKeys], hm⟩
      · exact .inr hm

theorem tree_of_successor? (h : Linked n.tree.links) (hm : n.successor? = some m) :
    m.tree = n.tree := by
  rcases names_or_parent_of_successor? hm with ⟨key, -, hkey⟩ | hparent
  · obtain ⟨handle, -, hfind⟩ := Option.bind_eq_some_iff.1 hkey
    have hmem := List.mem_of_find?_eq_some hfind
    rwa [Tree.scan, Tree.nodes_eq_places h, Tree.mem_places] at hmem
  · exact (parent_eq_some_iff.1 hparent).1

theorem tree_of_reached? (h : Linked n.tree.links) (hm : n.reached? k = some m) :
    m.tree = n.tree := by
  induction k generalizing m with
  | zero =>
    cases hm
    rfl
  | succ k ih =>
    obtain ⟨x, hx, hstep⟩ := Option.bind_eq_some_iff.1 hm
    have htree := ih hx
    exact (tree_of_successor? (htree ▸ h) hstep).trans htree

theorem tree_of_interruptParent (h : Linked n.tree.links) (hc : n.interruptParent.value = some c) :
    c.tree = n.tree := by
  have hholds : n.interruptRoute.Holds n (n.tree.nodeCount + 1) := n.holds_routeWithin _
  have hroute : n.interruptRoute.controller? = some c := hc
  cases hr : n.interruptRoute with
  | controller c' =>
    rw [hr] at hholds hroute
    obtain rfl := Option.some.inj hroute
    obtain ⟨k, -, -, hreached, -⟩ := hholds
    exact tree_of_reached? h hreached
  | lost =>
    rw [hr] at hroute
    contradiction
  | endless =>
    rw [hr] at hroute
    contradiction

/-- A walk with more steps than there are nodes comes to some node twice. -/
theorem exists_repeat (h : Linked n.tree.links)
    (hpass : ∀ k < n.tree.records.length + 1, n.Passes (k + 1)) :
    ∃ i j, i < j ∧ j ≤ n.tree.records.length ∧ n.reached? (i + 1) = n.reached? (j + 1) := by
  -- the nodes are told apart by their positions, of which there are only so many
  let place : Nat → Nat := fun k => ((n.reached? (k + 1)).map Node.index).getD 0
  have hplace : ∀ k m, n.reached? (k + 1) = some m → place k = m.index := by
    intro k m hm
    simp only [place, hm, Option.map_some, Option.getD_some]
  have hmaps : ∀ k ∈ Finset.range (n.tree.records.length + 1),
      place k ∈ Finset.range n.tree.records.length := by
    intro k hk
    obtain ⟨m, hm, -⟩ := hpass k (Finset.mem_range.1 hk)
    rw [hplace k m hm, Finset.mem_range, ← tree_of_reached? h hm]
    exact m.index_lt
  have hsame : ∀ i < n.tree.records.length + 1, ∀ j < n.tree.records.length + 1,
      place i = place j → n.reached? (i + 1) = n.reached? (j + 1) := by
    intro i hi j hj hij
    obtain ⟨a, ha, -⟩ := hpass i hi
    obtain ⟨b, hb, -⟩ := hpass j hj
    rw [hplace i a ha, hplace j b hb] at hij
    rw [ha, hb, eq_of_index_eq (tree_of_reached? h ha) (tree_of_reached? h hb) hij]
  obtain ⟨i, hi, j, hj, hne, hij⟩ :=
    Finset.exists_ne_map_eq_of_card_lt_of_maps_to (by simp) hmaps
  rw [Finset.mem_range] at hi hj
  rcases Nat.lt_or_gt_of_ne hne with hlt | hgt
  · exact ⟨i, j, hlt, Nat.lt_succ_iff.1 hj, hsame i hi j hj hij⟩
  · exact ⟨j, i, hgt, Nat.lt_succ_iff.1 hi, (hsame i hi j hj hij).symm⟩

/-- A walk that passes as many nodes as there are, and one more, goes round for ever. -/
theorem isEndless_of_passes (h : Linked n.tree.links)
    (hpass : ∀ k < n.tree.records.length + 1, n.Passes (k + 1)) : n.IsEndless := by
  obtain ⟨i, j, hij, hj, hsame⟩ := exists_repeat h hpass
  have hround : ∀ d, n.reached? (j + d + 1) = n.reached? (i + d + 1) := by
    intro d
    rw [Nat.add_right_comm, reached?_add, ← hsame, ← reached?_add, Nat.add_right_comm]
  -- a step behind the repeated node is one that was made a round before
  intro k
  induction k using Nat.strong_induction_on with
  | _ k ih =>
    by_cases hk : k < n.tree.records.length + 1
    · exact hpass k hk
    · obtain ⟨d, rfl⟩ := Nat.exists_eq_add_of_le (show j ≤ k by omega)
      rw [Passes, hround]
      exact ih (i + d) (by omega)

theorem eq_of_stops {k k' : Nat} (hall : ∀ j < k, n.Passes (j + 1)) (hstop : ¬n.Passes (k + 1))
    (hall' : ∀ j < k', n.Passes (j + 1)) (hstop' : ¬n.Passes (k' + 1)) : k = k' := by
  rcases Nat.lt_trichotomy k k' with hlt | heq | hgt
  · exact absurd (hall' k hlt) hstop
  · exact heq
  · exact absurd (hall k' hgt) hstop'

theorem not_passes_of_isController (hm : n.reached? k = some m) (hc : m.isController = true) :
    ¬n.Passes k := by
  rintro ⟨m', hm', hpasses⟩
  cases hm.symm.trans hm'
  rw [hc] at hpasses
  contradiction

theorem not_passes_of_eq_none (hnone : n.reached? k = none) : ¬n.Passes k := by
  rintro ⟨m, hm, -⟩
  rw [hnone] at hm
  contradiction

theorem Meets.eq {c' : Node} (h : n.Meets c) (h' : n.Meets c') : c = c' := by
  obtain ⟨k, hall, hc, hcontroller⟩ := h
  obtain ⟨k', hall', hc', hcontroller'⟩ := h'
  obtain rfl := eq_of_stops hall (not_passes_of_isController hc hcontroller) hall'
    (not_passes_of_isController hc' hcontroller')
  exact Option.some.inj (hc.symm.trans hc')

theorem Meets.not_isEndless (h : n.Meets c) : ¬n.IsEndless := by
  obtain ⟨k, -, hc, hcontroller⟩ := h
  exact fun hendless => not_passes_of_isController hc hcontroller (hendless k)

theorem RunsOut.reached?_eq_none (h : n.RunsOut) :
    ∃ k, (∀ j < k, n.Passes (j + 1)) ∧ n.reached? (k + 1) = none := by
  obtain ⟨k, m, hall, hm, hnone⟩ := h
  exact ⟨k, hall, by rw [reached?, hm, Option.bind_some, hnone]⟩

theorem RunsOut.not_meets (h : n.RunsOut) : ¬n.Meets c := by
  obtain ⟨k, hall, hnone⟩ := h.reached?_eq_none
  rintro ⟨k', hall', hc, hcontroller⟩
  obtain rfl := eq_of_stops hall (not_passes_of_eq_none hnone) hall'
    (not_passes_of_isController hc hcontroller)
  rw [hnone] at hc
  contradiction

theorem RunsOut.not_isEndless (h : n.RunsOut) : ¬n.IsEndless := by
  obtain ⟨k, -, hnone⟩ := h.reached?_eq_none
  exact fun hendless => not_passes_of_eq_none hnone (hendless k)

theorem runsOut_of_eq_none (hall : ∀ j < k, n.Passes (j + 1)) (hnone : n.reached? (k + 1) = none) :
    n.RunsOut := by
  have hreached : ∃ m, n.reached? k = some m := by
    cases k with
    | zero => exact ⟨n, rfl⟩
    | succ k =>
      obtain ⟨m, hm, -⟩ := hall k (Nat.lt_succ_self k)
      exact ⟨m, hm⟩
  obtain ⟨m, hm⟩ := hreached
  rw [reached?, hm, Option.bind_some] at hnone
  exact ⟨k, m, hall, hm, hnone⟩

/-- What is answered about a node's interrupts is what holds of the walk that is never cut off. -/
structure IsRouted (n : Node) : Prop where
  value_eq_some_iff : ∀ c, n.interruptParent.value = some c ↔ n.Meets c
  value_eq_none_iff : n.interruptParent.value = none ↔ n.RunsOut ∨ n.IsEndless
  warns : n.IsEndless → n.interruptParent.notices = [.endlessInterruptChain n.path]
  notices_eq_nil : ¬n.IsEndless → n.interruptParent.notices = []
  lost : n.RunsOut → n.interruptParent = ⟨none, []⟩
  /-- A walk that runs out does so at a node without a parent. -/
  parent_eq_none : ∀ m : Node, m.successor? = none → m.parent = none
  /-- An endless walk goes round in a circle. -/
  repeats : n.IsEndless →
    ∃ i j, i < j ∧ j ≤ n.tree.nodeCount ∧ n.reached? (i + 1) = n.reached? (j + 1)

theorem interruptParent_cases (h : Linked n.tree.links)
    (hcount : n.tree.nodeCount = n.tree.records.length) :
    (∃ c, n.Meets c ∧ n.interruptParent = ⟨some c, []⟩) ∨
      (n.RunsOut ∧ n.interruptParent = ⟨none, []⟩) ∨
      (n.IsEndless ∧ n.interruptParent = ⟨none, [.endlessInterruptChain n.path]⟩) := by
  have hholds : n.interruptRoute.Holds n (n.tree.records.length + 1) :=
    hcount ▸ n.holds_routeWithin (n.tree.nodeCount + 1)
  unfold interruptParent
  cases hroute : n.interruptRoute with
  | controller c =>
    rw [hroute] at hholds
    obtain ⟨k, -, hmeets⟩ := hholds
    exact .inl ⟨c, ⟨k, hmeets⟩, rfl⟩
  | lost =>
    rw [hroute] at hholds
    obtain ⟨k, -, hall, hnone⟩ := hholds
    exact .inr (.inl ⟨runsOut_of_eq_none hall hnone, rfl⟩)
  | endless =>
    rw [hroute] at hholds
    exact .inr (.inr ⟨isEndless_of_passes h hholds, rfl⟩)

theorem parent_eq_none_of_successor? (hm : m.successor? = none) : m.parent = none := by
  unfold successor? at hm
  simp only [Option.or_eq_none_iff] at hm
  exact hm.2.2.2

theorem isRouted (h : Linked n.tree.links) (hcount : n.tree.nodeCount = n.tree.records.length) :
    n.IsRouted := by
  have hcases := interruptParent_cases h hcount
  constructor
  case value_eq_some_iff =>
    intro c
    rcases hcases with ⟨c', hmeets, heq⟩ | ⟨hout, heq⟩ | ⟨hendless, heq⟩
    · rw [heq, Option.some.injEq]
      exact ⟨fun hc => hc ▸ hmeets, hmeets.eq⟩
    · simp [heq, hout.not_meets]
    · rw [heq]
      exact ⟨nofun, fun hmeets => absurd hendless hmeets.not_isEndless⟩
  case value_eq_none_iff =>
    rcases hcases with ⟨c, hmeets, heq⟩ | ⟨hout, heq⟩ | ⟨hendless, heq⟩
    · rw [heq]
      refine ⟨nofun, ?_⟩
      rintro (hout | hendless)
      · exact absurd hmeets hout.not_meets
      · exact absurd hendless hmeets.not_isEndless
    · simp [heq, hout]
    · simp [heq, hendless]
  case warns =>
    intro hendless
    rcases hcases with ⟨c, hmeets, -⟩ | ⟨hout, -⟩ | ⟨-, heq⟩
    · exact absurd hendless hmeets.not_isEndless
    · exact absurd hendless hout.not_isEndless
    · rw [heq]
  case notices_eq_nil =>
    intro hnot
    rcases hcases with ⟨c, -, heq⟩ | ⟨-, heq⟩ | ⟨hendless, -⟩
    · rw [heq]
    · rw [heq]
    · exact absurd hendless hnot
  case lost =>
    intro hout
    rcases hcases with ⟨c, hmeets, -⟩ | ⟨-, heq⟩ | ⟨hendless, -⟩
    · exact absurd hmeets hout.not_meets
    · exact heq
    · exact absurd hendless hout.not_isEndless
  case parent_eq_none => exact fun m => parent_eq_none_of_successor?
  case repeats =>
    intro hendless
    rw [hcount]
    exact exists_repeat h fun k _ => hendless k

end Node

/-- A root whose children are two nodes that name each other, a controller, and a node that names
the controller. -/
def Blob.sampleRouting : Blob where
  address := 0x1000
  bytes := List.flatMap Bytes.ofWord32
    [0xd00dfeed, 260, 40, 216, 40, 17, 16, 0, 44, 176, 1, 0,
      1, 0x61000000, 3, 4, 0, 1, 3, 4, 8, 2, 2, 1, 0x62000000, 3, 4, 0, 2, 3, 4, 8, 1, 2,
      1, 0x63000000, 3, 4, 0, 3, 3, 4, 25, 1, 2, 1, 0x64000000, 3, 4, 8, 3, 2, 2, 9] ++
    Bytes.ofString "phandle" ++ [0] ++ Bytes.ofString "interrupt-parent" ++ [0] ++
    Bytes.ofString "#interrupt-cells" ++ [0, 0, 0]
  headerSize_le := by decide +kernel
  length_lt := by decide +kernel

/-- Cutting a walk off after one more step than there are nodes changes nothing: the controller is
found wherever the walk meets one, and there is a warning just where the walk would never end. -/
theorem Build.isRouted_of_build {b : Blob} {heap : Heap} {t : Tree} {n : Node}
    (h : (build b heap).result = .ok t) (hn : n ∈ t.nodes) : n.IsRouted := by
  obtain rfl := (mem_nodes_of_build h).1 hn
  obtain ⟨hlinked, -, hcount⟩ := linked_of_build h
  exact Node.isRouted hlinked hcount

theorem Build.isRouted_of_build_sample :
    ∃ t a c d, (build .sampleRouting (.fresh 0)).result = .ok t ∧ a ∈ t.nodes ∧ d ∈ t.nodes ∧
      a.IsEndless ∧ d.Meets c := by
  have hanswers : (build .sampleRouting (.fresh 0)).result.toOption.map (fun t =>
      (t.nodes[1]?.map fun n => n.interruptParent.notices.length,
        t.nodes[4]?.map fun n => n.interruptParent.value.map Node.index)) =
      some (some 1, some (some 3)) := by decide +kernel
  obtain ⟨t, ht, hboth⟩ := exists_of_result hanswers
  obtain ⟨hwarned, hfound⟩ := Prod.mk.inj hboth
  obtain ⟨a, ha, hlength⟩ := Option.map_eq_some_iff.1 hwarned
  obtain ⟨d, hd, hindex⟩ := Option.map_eq_some_iff.1 hfound
  obtain ⟨c, hc, -⟩ := Option.map_eq_some_iff.1 hindex
  have hamem := List.mem_of_getElem? ha
  have hdmem := List.mem_of_getElem? hd
  refine ⟨t, a, c, d, ht, hamem, hdmem, ?_, ?_⟩
  · by_contra hnot
    rw [(isRouted_of_build ht hamem).notices_eq_nil hnot] at hlength
    contradiction
  · exact ((isRouted_of_build ht hdmem).value_eq_some_iff c).1 hc

end Devicetree
