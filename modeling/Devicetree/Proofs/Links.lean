import Devicetree.Proofs.Populated
import Mathlib.Logic.Relation

/-!
# Links

The links of the records agree with their parents. A node's children are linked from the first
to the last in document order, and every record is linked to the next one. Since a node starts
inside the nodes open at that point, its parent is the node before it or one of that node's
ancestors: the records are in preorder.
-/

namespace Devicetree

/-- The part of a record that places its node among the others. -/
structure NodeLinks where
  parent : Option Nat
  firstChild : Option Nat
  lastChild : Option Nat
  nextSibling : Option Nat
  next : Option Nat

def NodeRecord.links (r : NodeRecord) : NodeLinks :=
  ⟨r.parent, r.firstChild, r.lastChild, r.nextSibling, r.next⟩

variable {l : List NodeLinks} {i j p : Nat}

def parentAt (l : List NodeLinks) (i : Nat) : Option Nat := l[i]?.bind NodeLinks.parent

def childrenAt (l : List NodeLinks) (i : Nat) : List Nat :=
  (List.range l.length).filter fun c => parentAt l c = some i

/-- All links are those that the parents call for. -/
structure Linked (l : List NodeLinks) : Prop where
  parent_lt : ∀ {i p : Nat}, parentAt l i = some p → p < i
  firstChild : ∀ {i : Nat} {n : NodeLinks}, l[i]? = some n →
    n.firstChild = (childrenAt l i).head?
  lastChild : ∀ {i : Nat} {n : NodeLinks}, l[i]? = some n →
    n.lastChild = (childrenAt l i).getLast?
  nextSibling : ∀ {i : Nat} {n : NodeLinks}, l[i]? = some n →
    n.nextSibling = n.parent.bind fun p => (childrenAt l p).find? (i < ·)
  next : ∀ {i : Nat} {n : NodeLinks}, l[i]? = some n →
    n.next = if i + 1 < l.length then some (i + 1) else none

/-- A node that is not a top-level node starts inside the node before it or an ancestor of it. -/
def IsPreorder (l : List NodeLinks) : Prop :=
  ∀ {i p : Nat}, parentAt l (i + 1) = some p →
    Relation.ReflTransGen (fun c q => parentAt l c = some q) i p

theorem find?_lt_eq_none_iff {l : List Nat} (hl : l.Pairwise (· < ·)) (hj : j ∈ l) :
    l.find? (j < ·) = none ↔ l.getLast? = some j := by
  induction l with
  | nil => simp at hj
  | cons a l ih =>
    rw [List.pairwise_cons] at hl
    cases l with
    | nil =>
      obtain rfl := List.mem_singleton.1 hj
      simp
    | cons b l =>
      rw [List.getLast?_cons_cons]
      rcases List.mem_cons.1 hj with rfl | hj'
      · have hb := hl.1 b List.mem_cons_self
        have hne : (b :: l).getLast? ≠ some j := fun h =>
          absurd (hl.1 j (List.mem_of_getLast? h)) (Nat.lt_irrefl j)
        simp [hb, hne]
      · have ha := hl.1 j hj'
        rw [List.find?_cons_of_neg (by simpa using Nat.le_of_lt ha)]
        exact ih hl.2 hj'

theorem pairwise_childrenAt (l : List NodeLinks) (i : Nat) :
    (childrenAt l i).Pairwise (· < ·) :=
  List.pairwise_lt_range.filter _

theorem lt_of_parentAt (h : parentAt l i = some p) : i < l.length := by
  obtain ⟨n, hn, -⟩ := Option.bind_eq_some_iff.1 h
  exact (List.getElem?_eq_some_iff.1 hn).1

theorem mem_childrenAt {c : Nat} : c ∈ childrenAt l p ↔ parentAt l c = some p := by
  unfold childrenAt
  rw [List.mem_filter, List.mem_range, decide_eq_true_eq]
  exact ⟨And.right, fun h => ⟨lt_of_parentAt h, h⟩⟩

/-! ## Appending a node -/

variable {parent last : Option Nat}

/-- The links after a node is appended inside `parent` and behind `last`. -/
def appendLinks (l : List NodeLinks) (parent last : Option Nat) : List NodeLinks :=
  l.mapIdx (fun j n =>
    { n with
      firstChild := if parent = some j ∧ n.lastChild = none then some l.length else n.firstChild
      lastChild := if parent = some j then some l.length else n.lastChild
      nextSibling :=
        if (parent.bind fun p => l[p]?.bind NodeLinks.lastChild) = some j then some l.length
        else n.nextSibling
      next := if last = some j then some l.length else n.next }) ++
    [⟨parent, none, none, none, none⟩]

@[simp] theorem length_appendLinks (l : List NodeLinks) (parent last : Option Nat) :
    (appendLinks l parent last).length = l.length + 1 := by
  simp [appendLinks]

theorem parentAt_appendLinks (l : List NodeLinks) (parent last : Option Nat) (j : Nat) :
    parentAt (appendLinks l parent last) j = if j = l.length then parent else parentAt l j := by
  unfold parentAt appendLinks
  rcases Nat.lt_trichotomy j l.length with h | rfl | h
  · rw [List.getElem?_append_left (by simpa using h), if_neg (Nat.ne_of_lt h)]
    simp [h]
  · simp
  · rw [List.getElem?_eq_none (by simp; omega), List.getElem?_eq_none (Nat.le_of_lt h),
      if_neg (Nat.ne_of_gt h)]

theorem childrenAt_appendLinks (l : List NodeLinks) (parent last : Option Nat) (p : Nat) :
    childrenAt (appendLinks l parent last) p =
      childrenAt l p ++ if parent = some p then [l.length] else [] := by
  unfold childrenAt
  rw [length_appendLinks, List.range_succ, List.filter_append]
  congr 1
  · apply List.filter_congr
    intro c hc
    rw [parentAt_appendLinks, if_neg (Nat.ne_of_lt (List.mem_range.1 hc))]
  · rw [List.filter_cons, List.filter_nil, parentAt_appendLinks, if_pos rfl]
    simp

theorem getElem?_appendLinks (hj : j < l.length) {n : NodeLinks}
    (hn : (appendLinks l parent last)[j]? = some n) :
    ∃ n₀, l[j]? = some n₀ ∧ n = { n₀ with
      firstChild := if parent = some j ∧ n₀.lastChild = none then some l.length else n₀.firstChild
      lastChild := if parent = some j then some l.length else n₀.lastChild
      nextSibling :=
        if (parent.bind fun p => l[p]?.bind NodeLinks.lastChild) = some j then some l.length
        else n₀.nextSibling
      next := if last = some j then some l.length else n₀.next } := by
  unfold appendLinks at hn
  rw [List.getElem?_append_left (by simpa using hj)] at hn
  obtain ⟨n₀, hn₀, rfl⟩ := Option.map_eq_some_iff.1 (List.getElem?_mapIdx ▸ hn)
  exact ⟨n₀, hn₀, rfl⟩

theorem eq_of_getElem?_appendLinks (hj : l.length ≤ j) {n : NodeLinks}
    (hn : (appendLinks l parent last)[j]? = some n) :
    j = l.length ∧ n = ⟨parent, none, none, none, none⟩ := by
  have hlt := (List.getElem?_eq_some_iff.1 hn).1
  rw [length_appendLinks] at hlt
  obtain rfl := Nat.le_antisymm (Nat.le_of_lt_succ hlt) hj
  refine ⟨rfl, ?_⟩
  simpa [appendLinks, eq_comm] using hn

theorem childrenAt_length (h : Linked l) : childrenAt l l.length = [] := by
  apply List.eq_nil_iff_forall_not_mem.2
  intro c hc
  have hc := mem_childrenAt.1 hc
  exact Nat.lt_asymm (h.parent_lt hc) (lt_of_parentAt hc)

/-- The new node comes after exactly the last child that its parent had. -/
theorem nextSibling_append (h : Linked l) {n : NodeLinks} (hn : l[j]? = some n) :
    (if (parent.bind fun p => l[p]?.bind NodeLinks.lastChild) = some j then some l.length
      else n.parent.bind fun p => (childrenAt l p).find? (j < ·)) =
      n.parent.bind fun p => (childrenAt (appendLinks l parent last) p).find? (j < ·) := by
  have hj := (List.getElem?_eq_some_iff.1 hn).1
  have hlast : (parent.bind fun p => l[p]?.bind NodeLinks.lastChild) = some j ↔
      ∃ p, parent = some p ∧ (childrenAt l p).getLast? = some j := by
    rw [Option.bind_eq_some_iff]
    apply exists_congr
    intro p
    apply and_congr_right
    intro _
    constructor
    · intro hp
      obtain ⟨m, hm, hlast⟩ := Option.bind_eq_some_iff.1 hp
      rw [← h.lastChild hm, hlast]
    · intro hp
      have hlt := h.parent_lt (mem_childrenAt.1 (List.mem_of_getLast? hp))
      have hm : l[p]? = some l[p] := List.getElem?_eq_getElem (Nat.lt_trans hlt hj)
      rw [hm, Option.bind_some, h.lastChild hm, hp]
  have hparent : parentAt l j = n.parent := by
    rw [parentAt, hn, Option.bind_some]
  simp only [hlast, childrenAt_appendLinks, List.find?_append]
  cases hp : n.parent with
  | none =>
    rw [if_neg]
    · rfl
    · rintro ⟨p, -, hlast⟩
      have := mem_childrenAt.1 (List.mem_of_getLast? hlast)
      rw [hparent, hp] at this
      contradiction
  | some q =>
    have hq : ∀ p, j ∈ childrenAt l p ↔ q = p := fun p => by
      rw [mem_childrenAt, hparent, hp, Option.some.injEq]
    have honly : (∃ p, parent = some p ∧ (childrenAt l p).getLast? = some j) ↔
        parent = some q ∧ (childrenAt l q).getLast? = some j := by
      constructor
      · rintro ⟨p, hparent, hlast⟩
        obtain rfl := (hq p).1 (List.mem_of_getLast? hlast)
        exact ⟨hparent, hlast⟩
      · exact fun h => ⟨q, h⟩
    simp only [honly, ← find?_lt_eq_none_iff (pairwise_childrenAt l q) ((hq q).2 rfl)]
    by_cases heq : parent = some q
    · cases hfind : (childrenAt l q).find? (j < ·) <;> simp [heq, hfind, hj]
    · simp [heq]

theorem Linked.append (h : Linked l) (hparent : ∀ p, parent = some p → p < l.length)
    (hlast : ∀ j, last = some j ↔ j + 1 = l.length) : Linked (appendLinks l parent last) where
  parent_lt := by
    intro i p hi
    rw [parentAt_appendLinks] at hi
    split at hi
    · rename_i heq
      rw [heq]
      exact hparent p hi
    · exact h.parent_lt hi
  firstChild := by
    intro i n hn
    rw [childrenAt_appendLinks]
    rcases Nat.lt_or_ge i l.length with hi | hi
    · obtain ⟨n₀, hn₀, rfl⟩ := getElem?_appendLinks hi hn
      dsimp only
      rw [h.firstChild hn₀, h.lastChild hn₀]
      by_cases hp : parent = some i
      · cases hc : childrenAt l i <;> simp [hp]
      · simp [hp]
    · obtain ⟨rfl, rfl⟩ := eq_of_getElem?_appendLinks hi hn
      rw [childrenAt_length h, if_neg fun hp => Nat.lt_irrefl _ (hparent _ hp)]
      rfl
  lastChild := by
    intro i n hn
    rw [childrenAt_appendLinks]
    rcases Nat.lt_or_ge i l.length with hi | hi
    · obtain ⟨n₀, hn₀, rfl⟩ := getElem?_appendLinks hi hn
      dsimp only
      rw [h.lastChild hn₀]
      by_cases hp : parent = some i <;> simp [hp]
    · obtain ⟨rfl, rfl⟩ := eq_of_getElem?_appendLinks hi hn
      rw [childrenAt_length h, if_neg fun hp => Nat.lt_irrefl _ (hparent _ hp)]
      rfl
  nextSibling := by
    intro i n hn
    rcases Nat.lt_or_ge i l.length with hi | hi
    · obtain ⟨n₀, hn₀, rfl⟩ := getElem?_appendLinks hi hn
      dsimp only
      rw [h.nextSibling hn₀]
      exact nextSibling_append h hn₀
    · obtain ⟨rfl, rfl⟩ := eq_of_getElem?_appendLinks hi hn
      dsimp only
      cases parent with
      | none => rfl
      | some p =>
        rw [Option.bind_some, eq_comm, List.find?_eq_none]
        intro c hc
        have := lt_of_parentAt (mem_childrenAt.1 hc)
        rw [length_appendLinks] at this
        simpa using Nat.le_of_lt_succ this
  next := by
    intro i n hn
    rw [length_appendLinks]
    rcases Nat.lt_or_ge i l.length with hi | hi
    · obtain ⟨n₀, hn₀, rfl⟩ := getElem?_appendLinks hi hn
      dsimp only
      rw [h.next hn₀]
      by_cases hi' : i + 1 = l.length
      · simp [hi', (hlast i).2 hi']
      · rw [if_neg (mt (hlast i).1 hi'), if_pos (by omega), if_pos (by omega)]
    · obtain ⟨rfl, rfl⟩ := eq_of_getElem?_appendLinks hi hn
      simp

/-- The node inside which a new node starts is the node started last or an ancestor of it. -/
theorem IsPreorder.append (h : IsPreorder l)
    (hparent : ∀ p, parent = some p → ∀ i, i + 1 = l.length →
      Relation.ReflTransGen (fun c q => parentAt l c = some q) i p) :
    IsPreorder (appendLinks l parent last) := by
  intro i p hi
  have hmono : ∀ c q, parentAt l c = some q → parentAt (appendLinks l parent last) c = some q := by
    intro c q hc
    rw [parentAt_appendLinks, if_neg (Nat.ne_of_lt (lt_of_parentAt hc))]
    exact hc
  rw [parentAt_appendLinks] at hi
  split at hi
  · rename_i heq
    exact Relation.ReflTransGen.mono hmono _ _ (hparent p hi i heq)
  · exact Relation.ReflTransGen.mono hmono _ _ (h hi)

/-! ## Links of records -/

namespace Build
namespace Populating

def links (p : Populating) : List NodeLinks := p.records.map NodeRecord.links

theorem getElem?_link (records : List NodeRecord) (parent i j : Nat) :
    (link records parent i)[j]? = records[j]?.map fun r =>
      { r with
        firstChild := if parent = j ∧ r.lastChild = none then some i else r.firstChild
        lastChild := if parent = j then some i else r.lastChild
        nextSibling :=
          if records[parent]?.bind NodeRecord.lastChild = some j then some i
          else r.nextSibling } := by
  unfold link
  cases hlast : records[parent]?.bind NodeRecord.lastChild with
  | none =>
    simp only [List.getElem?_modify]
    cases hr : records[j]? with
    | none => rfl
    | some r =>
      by_cases hj : parent = j
      · subst hj
        rw [hr, Option.bind_some] at hlast
        simp [hlast]
      · simp [hj]
  | some q =>
    simp only [List.getElem?_modify]
    cases hr : records[j]? with
    | none => rfl
    | some r =>
      by_cases hj : parent = j
      · subst hj
        rw [hr, Option.bind_some] at hlast
        by_cases hq : q = parent <;> simp [hlast, hq]
      · by_cases hq : q = j <;> simp [hj, hq]

theorem getElem?_chain (records : List NodeRecord) (previous i j : Nat) :
    (chain records previous i)[j]? = records[j]?.map fun r =>
      { r with next := if previous = j then some i else r.next } := by
  unfold chain
  rw [List.getElem?_modify]
  cases records[j]? with
  | none => rfl
  | some r => by_cases hj : previous = j <;> simp [hj]

theorem map_links_append (records : List NodeRecord) (offset : UInt32) (path : Bytes)
    (parent last : Option Nat) :
    (append records offset path parent last).map NodeRecord.links =
      appendLinks (records.map NodeRecord.links) parent last := by
  have hparent : ∀ p : Nat, (records[p]?.map NodeRecord.links).bind NodeLinks.lastChild =
      records[p]?.bind NodeRecord.lastChild := by
    intro p
    cases records[p]? <;> rfl
  unfold append appendLinks
  rw [List.map_append]
  congr 1
  apply List.ext_getElem?
  intro j
  rw [List.getElem?_map, List.getElem?_mapIdx, List.getElem?_map]
  simp only [List.getElem?_map, hparent, List.length_map]
  cases parent with
  | none =>
    cases last with
    | none =>
      simp only [Option.elim_none]
      cases records[j]? <;> simp [NodeRecord.links]
    | some q =>
      simp only [Option.elim_some, Option.elim_none, getElem?_chain]
      cases records[j]? <;> simp [NodeRecord.links]
  | some p =>
    cases last with
    | none =>
      simp only [Option.elim_some, Option.elim_none, getElem?_link]
      cases records[j]? <;> simp [NodeRecord.links]
    | some q =>
      simp only [Option.elim_some, getElem?_chain, getElem?_link]
      cases records[j]? <;> simp [NodeRecord.links]

theorem map_links_attach (records : List NodeRecord) (p : PropertyRecord) :
    (attach records p).map NodeRecord.links = records.map NodeRecord.links := by
  have hlinks : ∀ r : NodeRecord, (r.addProperty p).links = id r.links := by
    intro r
    unfold NodeRecord.addProperty
    dsimp only
    repeat' split
    all_goals rfl
  unfold attach
  rw [map_modify id hlinks, List.modify_id]

variable {p q : Populating} {size : Nat} {e : Event} {events : List Event}

/-- The links of the nodes so far agree, and those of the next node will be drawn from the right
places. -/
structure WellLinked (p : Populating) : Prop where
  linked : Linked p.links
  isPreorder : IsPreorder p.links
  nodeCount_eq : p.nodeCount = p.records.length
  last_iff : ∀ i, p.last = some i ↔ i + 1 = p.records.length
  /-- The youngest open node is the node last started or an ancestor of it. -/
  current : ∀ c, p.current = some c → c < p.records.length ∧ ∀ i, i + 1 = p.records.length →
    Relation.ReflTransGen (fun c q => parentAt p.links c = some q) i c

theorem wellLinked_start : start.WellLinked where
  linked := by
    constructor <;> simp [start, links, parentAt]
  isPreorder := by
    intro i p h
    simp [start, links, parentAt] at h
  nodeCount_eq := rfl
  last_iff := by simp [start]
  current := by simp [start]

/-- What a step does to the part of the state that the links depend on. -/
theorem links_of_step (hs : p.step size e = .ok q) :
    (q.links = appendLinks p.links p.current p.last ∧ q.current = some p.records.length ∧
      q.last = some p.records.length ∧ q.nodeCount = p.nodeCount + 1) ∨
    (q.links = p.links ∧ q.last = p.last ∧ q.nodeCount = p.nodeCount ∧
      (q.current = p.current ∨ q.current = p.current.bind (parentAt p.links))) := by
  cases step_eq_ok_iff.1 hs with
  | startNode _ _ => exact .inl ⟨map_links_append .., rfl, rfl, rfl⟩
  | property _ _ => exact .inr ⟨map_links_attach .., rfl, rfl, .inl rfl⟩
  | endProperties _ _ _ => exact .inr ⟨map_links_attach .., rfl, rfl, .inl rfl⟩
  | endProperties_of_isNamed _ => exact .inr ⟨rfl, rfl, rfl, .inl rfl⟩
  | endNode =>
    refine .inr ⟨rfl, rfl, rfl, .inr ?_⟩
    have hparent : ∀ i : Nat, p.records[i]?.bind NodeRecord.parent = parentAt p.links i := by
      intro i
      unfold parentAt links
      rw [List.getElem?_map]
      cases p.records[i]? <;> rfl
    simp [endNode, hparent]

theorem length_links (p : Populating) : p.links.length = p.records.length := List.length_map _

theorem WellLinked.step (h : p.WellLinked) (hs : p.step size e = .ok q) : q.WellLinked := by
  obtain ⟨hlinked, hpreorder, hcount, hlast, hcurrent⟩ := h
  have hlength := length_links p
  have hlength' := length_links q
  rcases links_of_step hs with ⟨hlinks, hcur, hl, hn⟩ | ⟨hlinks, hl, hn, hcur⟩
  · rw [hlinks, length_appendLinks] at hlength'
    refine ⟨?_, ?_, by omega, ?_, ?_⟩
    · rw [hlinks]
      exact hlinked.append (fun c hc => hlength ▸ (hcurrent c hc).1) (hlength ▸ hlast)
    · rw [hlinks]
      exact hpreorder.append fun c hc => hlength ▸ (hcurrent c hc).2
    · intro i
      rw [hl, Option.some.injEq]
      omega
    · intro c hc
      rw [hcur, Option.some.injEq] at hc
      refine ⟨by omega, fun i hi => ?_⟩
      obtain rfl : i = c := by omega
      exact .refl
  · rw [hlinks] at hlength'
    have hrecords : q.records.length = p.records.length := by omega
    refine ⟨hlinks ▸ hlinked, hlinks ▸ hpreorder, by omega, ?_, ?_⟩
    · rw [hl, hrecords]
      exact hlast
    · rw [hlinks, hrecords]
      rcases hcur with hcur | hcur
      · rw [hcur]
        exact hcurrent
      · intro c hc
        rw [hcur] at hc
        obtain ⟨d, hd, hparent⟩ := Option.bind_eq_some_iff.1 hc
        obtain ⟨hlt, hpath⟩ := hcurrent d hd
        exact ⟨Nat.lt_trans (hlinked.parent_lt hparent) hlt, fun i hi => (hpath i hi).tail hparent⟩

theorem WellLinked.run (h : p.WellLinked) (hr : p.run size events = .ok q) : q.WellLinked := by
  induction events generalizing p with
  | nil =>
    cases hr
    exact h
  | cons e rest ih =>
    obtain ⟨p', hs, hrest⟩ := run_cons_eq_ok.1 hr
    exact ih (h.step hs) hrest

end Populating
end Build
end Devicetree
