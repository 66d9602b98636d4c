import Devicetree.Proofs.Likeness
import Devicetree.Proofs.Relatives

/-!
# Scans

A search that starts behind a node goes on through the document to the first node that it looks
for. Whoever starts at the front and goes on behind each answer is shown all such nodes, each once
and in order, and then none.
-/

namespace Devicetree

inductive Goal
  | name (name : String)
  | type (deviceType : String)
  | phandle (handle : UInt32)
  | compatible (deviceType : Option String) (name : String)
  | table (table : List String)

def Goal.query : Goal → Query
  | .name s => .name s
  | .type s => .type s
  | .phandle handle => .phandle handle
  | .compatible deviceType s => .compatible deviceType s
  | .table names => .table names

def Goal.isMet : Goal → Node → Bool
  | .name s, n => n.nameBytes = Bytes.ofString s
  | .type s, n => n.typeBytes = Bytes.ofString s
  | .phandle handle, n => n.phandle = some handle
  | .compatible deviceType s, n =>
    deviceType.all (fun ty => n.typeBytes = Bytes.ofString ty) && n.isCompatible s
  | .table names, n => names.any n.isCompatible

/-- The answer that a node is. For a table, it tells the first name that the node goes by. -/
def Goal.answer : Goal → Node → Node × Option Nat
  | .table names, n => (n, names.findIdx? n.isCompatible)
  | .name _, n | .type _, n | .phandle _, n | .compatible _ _, n => (n, none)

@[simp] theorem Goal.fst_answer (g : Goal) (n : Node) : (g.answer n).1 = n := by
  cases g <;> rfl

/-- The answers to a search that starts behind `after` and goes on behind each answer until there
is none. -/
inductive Tree.Answers (t : Tree) (g : Goal) : Option Node → List (Node × Option Nat) → Prop
  | stop {after : Option Node} : t.ask after g.query = none → Answers t g after []
  | next {after : Option Node} {n : Node} {entry : Option Nat} {rest : List (Node × Option Nat)} :
      t.ask after g.query = some (n, entry) → Answers t g (some n) rest →
      Answers t g after ((n, entry) :: rest)

theorem findSome?_eq_bind_find? {α β : Type} (f : α → Option β) (l : List α) :
    l.findSome? f = (l.find? fun a => (f a).isSome).bind f := by
  induction l with
  | nil => rfl
  | cons a rest ih =>
    rw [List.findSome?_cons, List.find?_cons]
    cases ha : f a with
    | none => simpa [ha] using ih
    | some b => simp [ha]

variable {t : Tree} {n : Node} {g : Goal} {after : Option Node} {earlier later : List Node}

/-- All searches are one scan for different nodes. -/
theorem Tree.ask_query (t : Tree) (after : Option Node) (g : Goal) :
    t.ask after g.query = ((t.scan after).find? g.isMet).map g.answer := by
  cases g with
  | name s => rfl
  | type s => rfl
  | phandle handle => rfl
  | compatible deviceType s => cases deviceType <;> rfl
  | table names =>
    have hsome : ∀ n : Node, ((n.matchTable names).map (n, ·)).isSome = names.any n.isCompatible :=
      fun n => by simp [Node.matchTable]
    simp only [Goal.query, ask, findMatching, findSome?_eq_bind_find?, hsome]
    change _ = ((t.scan after).find? fun n => names.any n.isCompatible).map _
    cases hfind : (t.scan after).find? fun n => names.any n.isCompatible with
    | none => rfl
    | some n =>
      have hmet := List.find?_some hfind
      rw [← hsome, Option.isSome_map] at hmet
      obtain ⟨i, hi⟩ := Option.isSome_iff_exists.1 hmet
      simp only [Option.bind_some, hi, Option.map_some, Goal.answer]
      rw [← hi, Node.matchTable]

theorem find?_lt_range' {first count i : Nat} (hi : i ∈ List.range' first count) :
    (List.range' first count).find? (i < ·) =
      if i + 1 < first + count then some (i + 1) else none := by
  obtain ⟨hfirst, hcount⟩ := List.mem_range'_1.1 hi
  have hget : (List.range' first count)[i - first]? = some i := by
    rw [List.getElem?_range' (by omega)]
    exact congrArg some (by omega)
  rw [find?_lt_of_getElem? List.pairwise_lt_range' hget]
  split
  · rw [List.getElem?_range' (by omega)]
    exact congrArg some (by omega)
  · exact List.getElem?_eq_none (by rw [List.length_range']; omega)

theorem Tree.nodesAt_range' (t : Tree) (first : Nat) :
    t.nodesAt (List.range' first (t.records.length - first)) = t.places.drop first := by
  apply List.ext_getElem?
  intro i
  rw [getElem?_nodesAt fun j hj => by have := List.mem_range'_1.1 hj; omega,
    List.getElem?_drop, getElem?_places]
  by_cases hi : i < t.records.length - first
  · rw [List.getElem?_range' hi, Nat.one_mul]
    rfl
  · rw [List.getElem?_eq_none (by rw [List.length_range']; omega), node?, dif_neg (by omega)]
    rfl

theorem Node.following_eq (h : Linked n.tree.links) :
    n.following = n.tree.places.drop (n.index + 1) := by
  have hnext : ∀ m : Node, m.tree = n.tree → m.record.next =
      if m.index + 1 < n.tree.records.length then some (m.index + 1) else none := by
    intro m hm
    rw [← n.tree.length_links]
    exact h.next (hm ▸ m.getElem?_links)
  have hhead : (if n.index + 1 < n.tree.records.length then some (n.index + 1) else none) =
      (List.range' (n.index + 1) (n.tree.records.length - (n.index + 1))).head? := by
    rw [List.head?_range']
    by_cases hlt : n.index + 1 < n.tree.records.length
    · rw [if_pos hlt, if_neg (by omega)]
    · rw [if_neg hlt, if_pos (by omega)]
  rw [← Tree.nodesAt_range', following, hnext n rfl, hhead]
  apply follow_head? (k := 0) List.pairwise_lt_range'
  · intro i hi
    have := List.mem_range'_1.1 hi
    omega
  · intro m hm hmem
    rw [hnext m hm, find?_lt_range' hmem, Nat.add_sub_cancel' n.index_lt]

theorem Node.following_of_nodes (h : Linked t.links) (hn : t.nodes = earlier ++ n :: later) :
    n.tree = t ∧ n.following = later := by
  have hget : t.places[earlier.length]? = some n := by
    rw [← Tree.nodes_eq_places h, hn, List.getElem?_append_right (Nat.le_refl _), Nat.sub_self]
    rfl
  obtain ⟨rfl, hindex⟩ := Tree.getElem?_places_eq_some_iff.1 hget
  rw [following_eq h, ← Tree.nodes_eq_places h, hn, hindex]
  simp

theorem Tree.scan_of_nodes (h : Linked t.links) (hn : t.nodes = earlier ++ n :: later) :
    t.scan (some n) = later := by
  obtain ⟨htree, hfollowing⟩ := Node.following_of_nodes h hn
  simp [scan, isSame, htree, hfollowing]

namespace Tree.Answers

variable {answers others : List (Node × Option Nat)} {rest : List Node}

theorem eq (h : t.Answers g after answers) (h' : t.Answers g after others) : answers = others := by
  induction h generalizing others with
  | stop hnone =>
    cases h' with
    | stop => rfl
    | next hsome => simp [hnone] at hsome
  | next hsome _ ih =>
    cases h' with
    | stop hnone => simp [hnone] at hsome
    | next hsome' hrest =>
      obtain ⟨rfl, rfl⟩ := Prod.mk.inj (Option.some.inj (hsome.symm.trans hsome'))
      rw [ih hrest]

/-- Which of the other nodes a search passes does not matter, as long as it comes to the same
answer. -/
theorem filter (h : Linked t.links) (hrest : rest <:+ t.nodes)
    (hask : t.ask after g.query = (rest.find? g.isMet).map g.answer) :
    t.Answers g after ((rest.filter g.isMet).map g.answer) := by
  -- by induction on the nodes that are left; behind a node that does not count the search is the
  -- same, and behind one that does it starts again from there
  induction rest generalizing after with
  | nil => exact .stop hask
  | cons n later ih =>
    obtain ⟨earlier, hn⟩ := hrest
    have hlater : later <:+ t.nodes := (List.suffix_cons n later).trans ⟨earlier, hn⟩
    cases hmet : g.isMet n with
    | false =>
      rw [List.find?_cons_of_neg (by simp [hmet])] at hask
      rw [List.filter_cons_of_neg (by simp [hmet])]
      exact ih hlater hask
    | true =>
      have hnext : t.Answers g (some n) ((later.filter g.isMet).map g.answer) :=
        ih hlater (by rw [ask_query, scan_of_nodes h hn.symm])
      have hanswer : g.answer n = (n, (g.answer n).2) := Prod.ext (g.fst_answer n) rfl
      rw [List.find?_cons_of_pos hmet, Option.map_some, hanswer] at hask
      rw [List.filter_cons_of_pos hmet, List.map_cons, hanswer]
      exact .next hask hnext

end Tree.Answers

/-- The searches of a tree go forward through its nodes. -/
structure Tree.ScansForward (t : Tree) : Prop where
  nodup_nodes : t.nodes.Nodup
  first : ∀ g : Goal, t.ask none g.query = (t.nodes.find? g.isMet).map g.answer
  behind : ∀ earlier n later, t.nodes = earlier ++ n :: later → ∀ g : Goal,
    t.ask (some n) g.query = (later.find? g.isMet).map g.answer
  foreign : ∀ n : Node, n.tree.isSame t = false → ∀ g : Goal, t.ask (some n) g.query = none
  /-- From the front on, every node that counts is answered, once and in order. -/
  all : ∀ (g : Goal) answers, t.Answers g none answers ↔
    answers = (t.nodes.filter g.isMet).map g.answer
  rest : ∀ earlier n later, t.nodes = earlier ++ n :: later → ∀ (g : Goal) answers,
    t.Answers g (some n) answers ↔ answers = (later.filter g.isMet).map g.answer
  compatible : ∀ s answers, t.Answers (.compatible none s) none answers →
    t.compatibleNodes s = answers.map Prod.fst
  resumed : ∀ earlier n later, t.nodes = earlier ++ n :: later → ∀ s,
    n.following = later ∧ t.compatibleNodes s =
      (earlier ++ [n]).filter (·.isCompatible s) ++ n.followingCompatible s
  machine : ∀ m : Machine, m.tree = some t → ∀ after (g : Goal),
    m.ask after g.query = t.ask after g.query

theorem Tree.scansForward (h : Linked t.links) : t.ScansForward := by
  have hask : ∀ earlier n later, t.nodes = earlier ++ n :: later → ∀ g : Goal,
      t.ask (some n) g.query = (later.find? g.isMet).map g.answer := by
    intro earlier n later hn g
    rw [ask_query, scan_of_nodes h hn]
  have hall : ∀ (g : Goal) answers, t.Answers g none answers ↔
      answers = (t.nodes.filter g.isMet).map g.answer := by
    intro g answers
    have hanswers := Answers.filter h (List.suffix_refl t.nodes) (ask_query t none g)
    exact ⟨fun ha => ha.eq hanswers, fun ha => ha ▸ hanswers⟩
  constructor
  case nodup_nodes => exact nodes_eq_places h ▸ t.nodup_places
  case first => exact ask_query t none
  case behind => exact hask
  case foreign =>
    intro n hn g
    simp [ask_query, scan, hn]
  case all => exact hall
  case rest =>
    intro earlier n later hn g answers
    have hlater : later <:+ t.nodes := ⟨earlier ++ [n], by simp [hn]⟩
    have hanswers := Answers.filter h hlater (hask earlier n later hn g)
    exact ⟨fun ha => ha.eq hanswers, fun ha => ha ▸ hanswers⟩
  case compatible =>
    intro s answers ha
    have hfst : Prod.fst ∘ (Goal.compatible none s).answer = id :=
      funext (Goal.compatible none s).fst_answer
    rw [(hall _ _).1 ha, List.map_map, hfst, List.map_id]
    rfl
  case resumed =>
    intro earlier n later hn s
    have hfollowing := (Node.following_of_nodes h hn).2
    refine ⟨hfollowing, ?_⟩
    rw [Node.followingCompatible, hfollowing, ← List.filter_append, compatibleNodes, hn]
    simp
  case machine =>
    intro m hm after g
    rw [Machine.ask_eq, hm, Option.bind_some]

namespace Build

variable {b b' : Blob} {heap heap' : Heap} {s : Tree}

theorem block_of_build (h : (build b heap).result = .ok t) :
    t.block.heap = heap.id ∧ heap.requests ≤ t.block.serial ∧
      t.block.serial < (build b heap).heap.requests := by
  obtain ⟨-, -, hm, -⟩ := populate_of_build h
  have hserves := serves_measure hm
  have ha := allocate_of_build h
  obtain ⟨heap₁, ha₁, hserves₁⟩ :=
    Heap.allocate_of_grants ⟨t.size + markSize, recordAlign⟩ (Heap.grants_of_allocate ha)
  obtain ⟨rfl, hblock⟩ := Prod.mk.inj (ha₁.symm.trans ha)
  rw [← Option.some.inj hblock, hserves.id_eq, hserves₁.requests_eq, hserves.requests_eq]
  exact ⟨rfl, Nat.le_add_right _ _, Nat.lt_succ_self _⟩

/-- Trees from different heaps, or built one after the other from one heap, are not the same. -/
theorem isSame_eq_false_of_build (h : (build b heap).result = .ok t)
    (h' : (build b' heap').result = .ok s)
    (happart : heap.id ≠ heap'.id ∨ (build b heap).heap.requests ≤ heap'.requests ∨
      (build b' heap').heap.requests ≤ heap.requests) : s.isSame t = false := by
  obtain ⟨hid, hfirst, hlast⟩ := block_of_build h
  obtain ⟨hid', hfirst', hlast'⟩ := block_of_build h'
  rw [Tree.isSame, decide_eq_false_iff_not]
  intro hblock
  rw [hblock] at hid' hfirst' hlast'
  rcases happart with hheap | hafter | hbefore
  · exact hheap (hid.symm.trans hid')
  · omega
  · omega

/-- From a node, each search goes on to the first node behind it in the document that satisfies
the search, and without a node it starts at the first node of all. So going on behind each answer
lists all nodes that satisfy the search, once and in order, and ends. From a node of a tree that was
built elsewhere, or earlier or later, nothing is found. -/
theorem scansForward_of_build (h : (build b heap).result = .ok t) :
    t.ScansForward ∧ ∀ b' heap' s, (build b' heap').result = .ok s →
      (heap.id ≠ heap'.id ∨ (build b heap).heap.requests ≤ heap'.requests ∨
        (build b' heap').heap.requests ≤ heap.requests) →
      ∀ n : Node, n.tree = s → ∀ g : Goal, t.ask (some n) g.query = none := by
  have hscans := Tree.scansForward (linked_of_build h).1
  refine ⟨hscans, ?_⟩
  rintro b' heap' s hs happart n rfl
  exact hscans.foreign n (isSame_eq_false_of_build h hs happart)

theorem scansForward_of_build_sample :
    ∃ t s n, (build .sample (.fresh 0)).result = .ok t ∧
      (build .sample (.fresh 1)).result = .ok s ∧ t.Answers (.name "a") none [(n, none)] ∧
      ∀ g : Goal, t.ask (some s.root) g.query = none := by
  have hnamed : (build .sample (.fresh 0)).result.toOption.map (fun t =>
      (t.nodes.filter (Goal.name "a").isMet).map Node.index) = some [1] := by decide +kernel
  obtain ⟨t, ht, hindex⟩ := exists_of_result hnamed
  obtain ⟨s, hs⟩ : ∃ s, (build .sample (.fresh 1)).result = .ok s :=
    exists_build_of_build ht fun _ => rfl
  obtain ⟨hscans, hforeign⟩ := scansForward_of_build ht
  obtain ⟨n, hn, -⟩ := List.map_eq_singleton_iff.1 hindex
  refine ⟨t, s, n, ht, hs, (hscans.all _ _).2 ?_, ?_⟩
  · rw [hn]
    rfl
  · exact hforeign _ _ s hs (.inl nofun) s.root rfl

end Build
end Devicetree
