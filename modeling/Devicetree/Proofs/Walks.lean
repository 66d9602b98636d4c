import Devicetree.Proofs.Links
import Devicetree.Proofs.Passes
import Mathlib.Data.Nat.Find

/-!
# Walks

Links in preorder are as good as the trees they stand for. The nodes below a node are the ones
right after it, up to the first that is not, so the nodes in document order are what a walk from
the top-level nodes meets.
-/

namespace Devicetree

/-- What walks in preorder from the given nodes meet, one walk after another. -/
inductive Walks {α : Type} (children : α → List α) : List α → List α → Prop
  | nil : Walks children [] []
  | cons {a : α} {below rest later : List α} : Walks children (children a) below →
      Walks children rest later → Walks children (a :: rest) (a :: below ++ later)

variable {l : List NodeLinks} {i j p stop : Nat}

/-- The node at `j` is inside the one at `i`. -/
def Below (l : List NodeLinks) (i j : Nat) : Prop :=
  Relation.TransGen (fun c q => parentAt l c = some q) j i

theorem below_iff : Below l i j ↔ ∃ p, parentAt l j = some p ∧ (p = i ∨ Below l i p) := by
  unfold Below
  rw [Relation.TransGen.head'_iff]
  apply exists_congr
  intro p
  apply and_congr_right
  intro _
  rw [Relation.reflTransGen_iff_eq_or_transGen, eq_comm]

theorem Linked.lt_of_below (h : Linked l) (hj : Below l i j) : i < j := by
  induction hj using Relation.TransGen.head_induction_on with
  | single hc => exact h.parent_lt hc
  | head hc _ ih => exact Nat.lt_trans ih (h.parent_lt hc)

theorem lt_of_below (hj : Below l i j) : j < l.length := by
  obtain ⟨p, hp, -⟩ := below_iff.1 hj
  exact lt_of_parentAt hp

/-- No node is inside another that the node before it has left. -/
theorem below_of_succ (hpre : IsPreorder l) (hj : Below l i (j + 1)) : i = j ∨ Below l i j := by
  obtain ⟨p, hp, hi⟩ := below_iff.1 hj
  have hlast : Relation.ReflTransGen (fun c q => parentAt l c = some q) j i := by
    rcases hi with rfl | hi
    · exact hpre hp
    · exact (hpre hp).trans hi.to_reflTransGen
  exact Relation.reflTransGen_iff_eq_or_transGen.1 hlast

/-- The nodes inside a node are exactly those right after it. -/
theorem exists_stop (h : Linked l) (hpre : IsPreorder l) (hi : i < l.length) :
    ∃ stop, i < stop ∧ stop ≤ l.length ∧ ∀ j, Below l i j ↔ i < j ∧ j < stop := by
  classical
  have hex : ∃ stop, i < stop ∧ ¬ Below l i stop :=
    ⟨l.length, hi, fun hb => Nat.lt_irrefl _ (lt_of_below hb)⟩
  obtain ⟨hlt, hstop⟩ := Nat.find_spec hex
  refine ⟨Nat.find hex, hlt, Nat.find_min' hex ⟨hi, fun hb => Nat.lt_irrefl _ (lt_of_below hb)⟩,
    fun j => ⟨fun hj => ⟨h.lt_of_below hj, ?_⟩, fun ⟨hij, hj⟩ => ?_⟩⟩
  · by_contra hge
    rw [Nat.not_lt] at hge
    -- Going back from `j` node by node, every node is inside `i`, and so is the one at `stop`.
    induction j, hge using Nat.le_induction with
    | base => exact hstop hj
    | succ j hge ih =>
      rcases below_of_succ hpre hj with rfl | hj
      · omega
      · exact ih hj
  · by_contra hb
    exact Nat.find_min hex hj ⟨hij, hb⟩

/-- The nodes from `i` up to `stop` are whole trees, those of the children of `owner` among
them. -/
structure IsForest (l : List NodeLinks) (owner : Option Nat) (i stop : Nat) : Prop where
  owner_lt : ∀ o, owner = some o → o < i
  parent : ∀ j, i ≤ j → j < stop → parentAt l j = owner ∨ ∃ p, parentAt l j = some p ∧ i ≤ p
  closed : ∀ j p, parentAt l j = some p → i ≤ p → p < stop → j < stop

/-- The children of `owner` among the nodes from `i` up to `stop`. -/
def topsAt (l : List NodeLinks) (owner : Option Nat) (i stop : Nat) : List Nat :=
  (List.range' i (stop - i)).filter fun c => parentAt l c = owner

variable {owner : Option Nat} {mid : Nat}

theorem range'_append (hi : i ≤ mid) (hmid : mid ≤ stop) :
    List.range' i (mid - i) ++ List.range' mid (stop - mid) = List.range' i (stop - i) := by
  have := List.range'_append_1 (s := i) (m := mid - i) (n := stop - mid)
  rwa [Nat.add_sub_of_le hi, show mid - i + (stop - mid) = stop - i by omega] at this

theorem topsAt_append (hi : i ≤ mid) (hmid : mid ≤ stop) :
    topsAt l owner i mid ++ topsAt l owner mid stop = topsAt l owner i stop := by
  unfold topsAt
  rw [← List.filter_append, range'_append hi hmid]

theorem topsAt_eq_nil (h : ∀ j, i ≤ j → j < stop → parentAt l j ≠ owner) :
    topsAt l owner i stop = [] := by
  unfold topsAt
  rw [List.filter_eq_nil_iff]
  intro j hj
  obtain ⟨hij, hlt⟩ := List.mem_range'_1.1 hj
  rw [decide_eq_true_eq]
  exact h j hij (by omega)

theorem childrenAt_eq_topsAt (h : Linked l) (hbelow : ∀ j, Below l i j ↔ i < j ∧ j < mid)
    (hi : i < mid) (hmid : mid ≤ l.length) : childrenAt l i = topsAt l (some i) (i + 1) mid := by
  have hchildren : childrenAt l i = topsAt l (some i) 0 l.length := by
    unfold childrenAt topsAt
    rw [Nat.sub_zero, ← List.range_eq_range']
  rw [hchildren, ← topsAt_append (Nat.zero_le (i + 1)) (Nat.le_trans hi hmid),
    ← topsAt_append hi hmid, topsAt_eq_nil, topsAt_eq_nil (i := mid)]
  · simp
  · intro j hj _ hparent
    have := (hbelow j).1 (below_iff.2 ⟨i, hparent, .inl rfl⟩)
    omega
  · intro j _ hj hparent
    have := h.parent_lt hparent
    omega

namespace IsForest

theorem lt_of_below (hforest : IsForest l owner i stop) (h : Linked l) (hi : i ≤ p)
    (hp : p < stop) (hj : Below l p j) : j < stop := by
  induction hj using Relation.TransGen.head_induction_on with
  | single hc => exact hforest.closed _ _ hc hi hp
  | head hc hq ih =>
    have := h.lt_of_below hq
    exact hforest.closed _ _ hc (by omega) ih

theorem children (h : Linked l) (hbelow : ∀ j, Below l i j ↔ i < j ∧ j < mid) :
    IsForest l (some i) (i + 1) mid where
  owner_lt := by
    rintro o ⟨⟩
    exact Nat.lt_succ_self i
  parent := by
    intro j hij hj
    obtain ⟨p, hp, rfl | hb⟩ := below_iff.1 ((hbelow j).2 ⟨hij, hj⟩)
    · exact .inl hp
    · exact .inr ⟨p, hp, h.lt_of_below hb⟩
  closed := by
    intro j p hj hip hp
    exact ((hbelow j).1 (below_iff.2 ⟨p, hj, .inr ((hbelow p).2 ⟨hip, hp⟩)⟩)).2

theorem later (hforest : IsForest l owner i stop) (hi : i < mid)
    (hbelow : ∀ j, Below l i j ↔ i < j ∧ j < mid) : IsForest l owner mid stop where
  owner_lt := fun o ho => Nat.lt_trans (hforest.owner_lt o ho) hi
  parent := by
    intro j hmid hj
    apply (hforest.parent j (by omega) hj).imp_right
    rintro ⟨p, hp, hip⟩
    refine ⟨p, hp, ?_⟩
    by_contra hlt
    have hb : p = i ∨ Below l i p := by
      rcases Nat.eq_or_lt_of_le hip with rfl | hip
      · exact .inl rfl
      · exact .inr ((hbelow p).2 ⟨hip, by omega⟩)
    have := (hbelow j).1 (below_iff.2 ⟨p, hp, hb⟩)
    omega
  closed := fun j p hj hmid hp => hforest.closed j p hj (by omega) hp

theorem walks (hforest : IsForest l owner i stop) (h : Linked l) (hpre : IsPreorder l)
    (hstop : stop ≤ l.length) :
    Walks (childrenAt l) (topsAt l owner i stop) (List.range' i (stop - i)) := by
  induction hn : stop - i using Nat.strong_induction_on generalizing owner i stop with
  | _ n ih =>
    subst hn
    rcases Nat.lt_or_ge i stop with hi | hi
    · obtain ⟨mid, hmid, -, hbelow⟩ := exists_stop h hpre (Nat.lt_of_lt_of_le hi hstop)
      have hle : mid ≤ stop := by
        rcases Nat.eq_or_lt_of_le (show i + 1 ≤ mid from hmid) with rfl | hlt
        · exact hi
        · have := hforest.lt_of_below h (Nat.le_refl i) hi
            ((hbelow (mid - 1)).2 ⟨by omega, by omega⟩)
          omega
      have htop : parentAt l i = owner := by
        rcases hforest.parent i (Nat.le_refl i) hi with hp | ⟨p, hp, hip⟩
        · exact hp
        · exact absurd (h.parent_lt hp) (by omega)
      have htops : topsAt l owner i stop = i :: topsAt l owner mid stop := by
        rw [← topsAt_append (Nat.le_succ i) hi, ← topsAt_append hmid hle,
          topsAt_eq_nil (i := i + 1)]
        · simp [topsAt, htop]
        · intro j hij hj hparent
          obtain ⟨p, hp, hpi⟩ := below_iff.1 ((hbelow j).2 ⟨hij, hj⟩)
          have hpi : i ≤ p := hpi.elim (fun hpi => Nat.le_of_eq hpi.symm) fun hb =>
            Nat.le_of_lt (h.lt_of_below hb)
          have := hforest.owner_lt p (by rw [← hparent, hp])
          omega
      have hnodes : List.range' i (stop - i) =
          i :: List.range' (i + 1) (mid - (i + 1)) ++ List.range' mid (stop - mid) := by
        rw [List.cons_append, range'_append hmid hle, ← Nat.succ_pred_eq_of_pos
          (Nat.sub_pos_of_lt hi), List.range'_succ, ← Nat.sub_succ]
      rw [htops, hnodes]
      refine .cons ?_ (ih _ (by omega) (hforest.later hmid hbelow) hstop rfl)
      rw [childrenAt_eq_topsAt h hbelow hmid (Nat.le_trans hle hstop)]
      exact ih _ (by omega) (.children h hbelow) (Nat.le_trans hle hstop) rfl
    · rw [topsAt, Nat.sub_eq_zero_of_le hi]
      exact .nil

end IsForest

/-- All nodes in document order are what walks from the top-level nodes meet. -/
theorem walks_range (h : Linked l) (hpre : IsPreorder l) :
    Walks (childrenAt l) ((List.range l.length).filter fun c => parentAt l c = none)
      (List.range l.length) := by
  have hforest : IsForest l none 0 l.length :=
    ⟨nofun, fun j _ _ => by cases parentAt l j <;> simp,
      fun j p hj _ _ => lt_of_parentAt hj⟩
  have := hforest.walks h hpre (Nat.le_refl _)
  rwa [topsAt, Nat.sub_zero, ← List.range_eq_range'] at this

end Devicetree
