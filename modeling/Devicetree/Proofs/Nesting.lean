import Devicetree.Token

/-!
# Nesting

Which nodes are open at a position is a matter of counting: one that begins earlier is open as
long as no stretch behind it ends more nodes than it begins. Ends that close nothing need no
special care. A scan that keeps a stack finds the same nodes, the innermost on top, and so an end
token closes the innermost open node.
-/

namespace Devicetree
namespace Token

def isBegin : Token → Bool
  | .beginNode _ => true
  | .endNode | .property _ _ | .nop => false

def isEnd : Token → Bool
  | .endNode => true
  | .beginNode _ | .property _ _ | .nop => false

theorem eq_endNode {t : Token} (h : t.isEnd = true) : t = .endNode := by
  cases t <;> first | rfl | contradiction

def begins (tokens : List Token) : Nat := tokens.countP isBegin

def ends (tokens : List Token) : Nat := tokens.countP isEnd

variable {T : List Token} {i j k d : Nat} {t : Token} {name : Bytes}

/-- The tokens behind the one at `i` and before the one at `k`. -/
def between (T : List Token) (i k : Nat) : List Token := (T.take k).drop (i + 1)

structure IsOpen (T : List Token) (i k : Nat) : Prop where
  lt : i < k
  isBegin : ∃ name, T[i]? = some (.beginNode name)
  ends_le : ∀ j ≤ k, ends (between T i j) ≤ begins (between T i j)

/-- The node that begins at `i` is the last one to begin of those open right before `k`. -/
def IsInnermost (T : List Token) (i k : Nat) : Prop := IsOpen T i k ∧ ∀ j, IsOpen T j k → j ≤ i

/-- What the token at `k` does to the positions of the open nodes, the innermost on top. -/
def nest (k : Nat) (stack : List Nat) : Token → List Nat
  | .beginNode _ => k :: stack
  | .endNode => stack.tail
  | .property _ _ | .nop => stack

/-- The open nodes right before `k` as a scan with a stack finds them. -/
def openAt (T : List Token) : Nat → List Nat
  | 0 => []
  | k + 1 => T[k]?.elim (openAt T k) (nest k (openAt T k))

theorem between_succ (h : i < k) (ht : T[k]? = some t) :
    between T i (k + 1) = between T i k ++ [t] := by
  have hk := (List.getElem?_eq_some_iff.1 ht).1
  unfold between
  rw [List.take_add_one, ht, Option.toList_some, List.drop_append_of_le_length]
  rw [List.length_take]
  omega

theorem between_eq_nil (h : k ≤ i + 1) : between T i k = [] := by
  unfold between
  rw [List.drop_eq_nil_iff, List.length_take]
  omega

theorem of_drop_eq_cons {rest : List Token} (h : T.drop k = t :: rest) :
    T[k]? = some t ∧ T.drop (k + 1) = rest ∧ k + 1 ≤ T.length := by
  have ht : T[k]? = some t := by
    rw [← List.head?_drop, h, List.head?_cons]
  have hrest : T.drop (k + 1) = rest := by
    rw [← List.tail_drop, h, List.tail_cons]
  exact ⟨ht, hrest, (List.getElem?_eq_some_iff.1 ht).1⟩

theorem begins_append (S T : List Token) : begins (S ++ T) = begins S + begins T :=
  List.countP_append

theorem ends_append (S T : List Token) : ends (S ++ T) = ends S + ends T := List.countP_append

theorem begins_take_succ (ht : T[k]? = some t) :
    begins (T.take (k + 1)) = begins (T.take k) + begins [t] := by
  rw [List.take_add_one, ht, Option.toList_some, begins_append]

theorem exists_begin (h : i < begins T) :
    ∃ k name, T[k]? = some (.beginNode name) ∧ begins (T.take k) = i := by
  induction T generalizing i with
  | nil => exact absurd h (Nat.not_lt_zero i)
  | cons t rest ih =>
    have hcons : ∀ S, begins (t :: S) = begins [t] + begins S := begins_append [t]
    rw [hcons] at h
    by_cases hi : i < begins [t]
    · cases t with
      | beginNode name => exact ⟨0, name, rfl, (Nat.lt_one_iff.1 hi).symm⟩
      | endNode => exact absurd hi (Nat.not_lt_zero i)
      | property nameOffset value => exact absurd hi (Nat.not_lt_zero i)
      | nop => exact absurd hi (Nat.not_lt_zero i)
    · obtain ⟨k, name, hname, hk⟩ := ih (i := i - begins [t]) (by omega)
      refine ⟨k + 1, name, hname, ?_⟩
      rw [List.take_succ_cons, hcons, hk]
      omega

theorem isOpen_succ_iff (h : i < k) (ht : T[k]? = some t) :
    IsOpen T i (k + 1) ↔ IsOpen T i k ∧
      ends (between T i k) + ends [t] ≤ begins (between T i k) + begins [t] := by
  have hlast : ends (between T i (k + 1)) ≤ begins (between T i (k + 1)) ↔
      ends (between T i k) + ends [t] ≤ begins (between T i k) + begins [t] := by
    rw [between_succ h ht, ends_append, begins_append]
  constructor
  · rintro ⟨-, hbegin, hle⟩
    exact ⟨⟨h, hbegin, fun j hj => hle j (Nat.le_succ_of_le hj)⟩, hlast.1 (hle _ (Nat.le_refl _))⟩
  · rintro ⟨⟨-, hbegin, hle⟩, hend⟩
    refine ⟨Nat.lt_succ_of_lt h, hbegin, ?_⟩
    intro j hj
    rcases Nat.lt_or_eq_of_le hj with hj | rfl
    · exact hle j (Nat.le_of_lt_succ hj)
    · exact hlast.2 hend

theorem isOpen_self_succ_iff : IsOpen T k (k + 1) ↔ ∃ name, T[k]? = some (.beginNode name) := by
  constructor
  · exact IsOpen.isBegin
  · intro h
    refine ⟨Nat.lt_succ_self k, h, ?_⟩
    intro j hj
    rw [between_eq_nil hj]
    exact Nat.le_refl _

theorem mem_nest {stack : List Nat} (h : i ∈ nest k stack t) : i = k ∨ i ∈ stack := by
  cases t with
  | beginNode name => exact List.mem_cons.1 h
  | endNode => exact .inr (List.mem_of_mem_tail h)
  | property nameOffset value => exact .inr h
  | nop => exact .inr h

theorem openAt_succ (ht : T[k]? = some t) : openAt T (k + 1) = nest k (openAt T k) t := by
  rw [openAt, ht, Option.elim_some]

/-- What a token does to the depth of a node that began before it. -/
theorem getElem?_nest_iff {stack : List Nat} (hi : i < k) (ht : T[k]? = some t)
    (hstack : ∀ d : Nat, stack[d]? = some i ↔
      IsOpen T i k ∧ begins (between T i k) = ends (between T i k) + d) :
    (nest k stack t)[d]? = some i ↔
      IsOpen T i (k + 1) ∧ begins (between T i (k + 1)) = ends (between T i (k + 1)) + d := by
  rw [isOpen_succ_iff hi ht, between_succ hi ht, begins_append, ends_append]
  have hle := fun h : IsOpen T i k => h.ends_le k (Nat.le_refl k)
  cases t with
  | beginNode name =>
    cases d with
    | zero =>
      simp only [nest, List.getElem?_cons_zero, Option.some.injEq, Nat.ne_of_gt hi, false_iff]
      rintro ⟨⟨hopen, -⟩, heq⟩
      have := hle hopen
      simp [begins, ends, isBegin, isEnd] at heq this
      omega
    | succ d =>
      rw [nest, List.getElem?_cons_succ, hstack, and_assoc]
      apply and_congr_right
      intro hopen
      simp [begins, ends, isBegin, isEnd]
      omega
  | endNode =>
    rw [nest, List.getElem?_tail, hstack, and_assoc]
    apply and_congr_right
    intro hopen
    simp [begins, ends, isBegin, isEnd]
    omega
  | property nameOffset value =>
    rw [nest, hstack, and_assoc]
    apply and_congr_right
    intro hopen
    have := hle hopen
    simp [begins, ends, isBegin, isEnd]
    omega
  | nop =>
    rw [nest, hstack, and_assoc]
    apply and_congr_right
    intro hopen
    have := hle hopen
    simp [begins, ends, isBegin, isEnd]
    omega

theorem getElem?_nest_self_iff {stack : List Nat} (ht : T[k]? = some t)
    (hstack : ∀ d : Nat, stack[d]? ≠ some k) :
    (nest k stack t)[d]? = some k ↔
      IsOpen T k (k + 1) ∧ begins (between T k (k + 1)) = ends (between T k (k + 1)) + d := by
  rw [isOpen_self_succ_iff, between_eq_nil (Nat.le_refl _), ht]
  cases t with
  | beginNode name =>
    cases d with
    | zero => simp [nest, begins, ends]
    | succ d => simp [nest, begins, ends, hstack]
  | endNode => simp [nest, List.getElem?_tail, hstack]
  | property nameOffset value => simp [nest, hstack]
  | nop => simp [nest, hstack]

/-- A node stands as far down the stack as the tokens behind it begin more nodes than they end. -/
theorem getElem?_openAt_iff (hk : k ≤ T.length) :
    (openAt T k)[d]? = some i ↔
      IsOpen T i k ∧ begins (between T i k) = ends (between T i k) + d := by
  induction k generalizing i d with
  | zero =>
    constructor
    · simp [openAt]
    · rintro ⟨h, -⟩
      exact absurd h.lt (Nat.not_lt_zero i)
  | succ k ih =>
    have ih := fun i d => ih (i := i) (d := d) (Nat.le_of_succ_le hk)
    have ht : T[k]? = some T[k] := List.getElem?_eq_getElem hk
    rw [openAt_succ ht]
    rcases Nat.lt_trichotomy i k with hi | rfl | hi
    · exact getElem?_nest_iff hi ht (ih i)
    · apply getElem?_nest_self_iff ht
      intro d h
      exact Nat.lt_irrefl i ((ih i d).1 h).1.lt
    · constructor
      · intro h
        rcases mem_nest (List.mem_of_getElem? h) with rfl | hmem
        · exact absurd hi (Nat.lt_irrefl _)
        · obtain ⟨d', hd'⟩ := List.mem_iff_getElem?.1 hmem
          exact absurd ((ih i d').1 hd').1.lt (Nat.lt_asymm hi)
      · rintro ⟨hopen, -⟩
        exact absurd hopen.lt (by omega)

theorem mem_openAt_iff (hk : k ≤ T.length) : i ∈ openAt T k ↔ IsOpen T i k := by
  rw [List.mem_iff_getElem?]
  constructor
  · rintro ⟨d, hd⟩
    exact ((getElem?_openAt_iff hk).1 hd).1
  · intro h
    have hle := h.ends_le k (Nat.le_refl k)
    exact ⟨_, (getElem?_openAt_iff hk).2 ⟨h, (Nat.add_sub_of_le hle).symm⟩⟩

theorem openAt_eq (T : List Token) (k : Nat) :
    openAt T (k + 1) = k :: openAt T k ∨ openAt T (k + 1) = (openAt T k).tail ∨
      openAt T (k + 1) = openAt T k := by
  cases ht : T[k]? with
  | none => exact .inr (.inr (by rw [openAt, ht, Option.elim_none]))
  | some t =>
    rw [openAt_succ ht]
    cases t with
    | beginNode name => exact .inl rfl
    | endNode => exact .inr (.inl rfl)
    | property nameOffset value => exact .inr (.inr rfl)
    | nop => exact .inr (.inr rfl)

theorem lt_of_mem_openAt (h : i ∈ openAt T k) : i < k := by
  induction k with
  | zero => simp [openAt] at h
  | succ k ih =>
    rcases openAt_eq T k with heq | heq | heq
    · rcases List.mem_cons.1 (heq ▸ h) with rfl | h
      · exact Nat.lt_succ_self i
      · exact Nat.lt_succ_of_lt (ih h)
    · exact Nat.lt_succ_of_lt (ih (List.mem_of_mem_tail (heq ▸ h)))
    · exact Nat.lt_succ_of_lt (ih (heq ▸ h))

theorem eq_openAt_of_cons {rest : List Nat} (h : openAt T k = i :: rest) : rest = openAt T i := by
  induction k using Nat.strongRecOn generalizing i rest with
  | _ k ih =>
    cases k with
    | zero => simp [openAt] at h
    | succ k =>
      rcases openAt_eq T k with heq | heq | heq
      · obtain ⟨rfl, rfl⟩ := List.cons.inj (heq.symm.trans h)
        rfl
      · cases hk : openAt T k with
        | nil => simp [heq, hk] at h
        | cons a below =>
          have hbelow : openAt T a = i :: rest := by
            rw [← ih k (Nat.lt_succ_self k) hk, ← h, heq, hk, List.tail_cons]
          have ha : a < k := lt_of_mem_openAt (hk ▸ List.mem_cons_self)
          exact ih a (Nat.lt_succ_of_lt ha) hbelow
      · exact ih k (Nat.lt_succ_self k) (heq ▸ h)

theorem isInnermost_iff (hk : k ≤ T.length) :
    IsInnermost T i k ↔ (openAt T k).head? = some i := by
  constructor
  · rintro ⟨hopen, hlast⟩
    cases hstack : openAt T k with
    | nil => exact absurd ((mem_openAt_iff hk).2 hopen) (by simp [hstack])
    | cons a rest =>
      have ha : a ≤ i := hlast a ((mem_openAt_iff hk).1 (hstack ▸ List.mem_cons_self))
      have hi : i ∈ a :: rest := hstack ▸ (mem_openAt_iff hk).2 hopen
      rcases List.mem_cons.1 hi with rfl | hi
      · rfl
      · rw [eq_openAt_of_cons hstack] at hi
        exact absurd (lt_of_mem_openAt hi) (Nat.not_lt.2 ha)
  · intro hhead
    obtain ⟨rest, hstack⟩ := List.head?_eq_some_iff.1 hhead
    refine ⟨(mem_openAt_iff hk).1 (hstack ▸ List.mem_cons_self), fun j hj => ?_⟩
    rcases List.mem_cons.1 (hstack ▸ (mem_openAt_iff hk).2 hj) with rfl | hj
    · exact Nat.le_refl _
    · rw [eq_openAt_of_cons hstack] at hj
      exact Nat.le_of_lt (lt_of_mem_openAt hj)

/-- A node is open until an end token finds it innermost. -/
theorem isOpen_iff_forall_not_isInnermost (hk : k ≤ T.length) :
    IsOpen T i k ↔ i < k ∧ (∃ name, T[i]? = some (.beginNode name)) ∧
      ∀ e < k, T[e]? = some .endNode → ¬ IsInnermost T i e := by
  induction k with
  | zero =>
    exact ⟨fun h => absurd h.lt (Nat.not_lt_zero i), fun h => absurd h.1 (Nat.not_lt_zero i)⟩
  | succ k ih =>
    have hk' := Nat.le_of_succ_le hk
    have ih := ih hk'
    have ht : T[k]? = some T[k] := List.getElem?_eq_getElem hk
    rcases Nat.lt_trichotomy i k with hi | rfl | hi
    · have hinner : IsInnermost T i k ↔
          IsOpen T i k ∧ begins (between T i k) = ends (between T i k) := by
        rw [isInnermost_iff hk', List.head?_eq_getElem?, getElem?_openAt_iff hk', Nat.add_zero]
      rw [isOpen_succ_iff hi ht]
      constructor
      · rintro ⟨hopen, hle⟩
        obtain ⟨-, hbegin, hnot⟩ := ih.1 hopen
        refine ⟨Nat.lt_succ_of_lt hi, hbegin, fun e he hend hin => ?_⟩
        rcases Nat.lt_or_eq_of_le (Nat.le_of_lt_succ he) with he | rfl
        · exact hnot e he hend hin
        · have heq := (hinner.1 hin).2
          rw [Option.some.inj (ht.symm.trans hend)] at hle
          have hend : ends [endNode] = 1 := rfl
          have hbegin : begins [endNode] = 0 := rfl
          omega
      · rintro ⟨-, hbegin, hnot⟩
        have hopen := ih.2 ⟨hi, hbegin, fun e he => hnot e (Nat.lt_succ_of_lt he)⟩
        have hle := hopen.ends_le k (Nat.le_refl k)
        refine ⟨hopen, ?_⟩
        by_cases hend : T[k].isEnd
        · have hne : begins (between T i k) ≠ ends (between T i k) := fun heq =>
            hnot k (Nat.lt_succ_self k) (ht.trans (congrArg some (eq_endNode hend)))
              (hinner.2 ⟨hopen, heq⟩)
          rw [eq_endNode hend]
          have hend : ends [endNode] = 1 := rfl
          omega
        · have hend : ends [T[k]] = 0 := by simp [ends, hend]
          omega
    · rw [isOpen_self_succ_iff]
      refine ⟨fun h => ⟨Nat.lt_succ_self i, h, fun e he hend hinner => ?_⟩, fun h => h.2.1⟩
      exact absurd hinner.1.lt (Nat.not_lt.2 (Nat.le_of_lt_succ he))
    · exact ⟨fun h => absurd h.lt (by omega), fun h => absurd h.1 (by omega)⟩

end Token
end Devicetree
