import Devicetree.Proofs.Roots
import Devicetree.Proofs.Utf8
import Devicetree.Search

/-!
# Paths

Where names hold no slash and siblings have different names, a path is the names on the way down to
its node. It can be taken apart again, so no two nodes share a path and a search by path finds the
node that was asked for its path.
-/

namespace Devicetree
namespace Path

variable {parent parent' name name' : Bytes}

theorem below_some (parent name : Bytes) :
    below (some parent) name = (if parent = root then [] else parent) ++ slash :: name := rfl

theorem unitName_append (h : slash ∉ name) (front : Bytes) :
    unitName (front ++ slash :: name) = name := by
  have hname : slash ∉ name.reverse := fun hmem => h (List.mem_reverse.1 hmem)
  rw [unitName, List.reverse_append, List.reverse_cons, List.append_assoc, List.singleton_append,
    Bytes.takeWhile_ne_append hname, List.reverse_reverse]

theorem unitName_below (h : slash ∉ name) : unitName (below (some parent) name) = name :=
  unitName_append h _

theorem below_ne_root (h : name ≠ []) : below (some parent) name ≠ root := by
  rw [below_some]
  split
  · intro heq
    exact h (List.cons.inj heq).2
  · intro heq
    have hlength := congrArg List.length heq
    have hpos := List.length_pos_iff.2 h
    simp only [root, List.length_append, List.length_cons, List.length_nil] at hlength
    omega

theorem below_ne_nil (parent : Option Bytes) (name : Bytes) : below parent name ≠ [] := by
  cases parent <;> simp [below, root]

theorem below_inj (hparent : parent ≠ []) (hparent' : parent' ≠ []) (h : slash ∉ name)
    (h' : slash ∉ name') (heq : below (some parent) name = below (some parent') name') :
    parent = parent' ∧ name = name' := by
  obtain rfl : name = name' := by
    have hname : unitName (below (some parent) name) = name := unitName_below h
    rw [← hname, heq, unitName_below h']
  refine ⟨?_, rfl⟩
  rw [below_some, below_some] at heq
  have hbase := List.append_cancel_right heq
  split at hbase <;> split at hbase <;> simp_all

def front (path : String) : String := (if path = "/" then "" else path) ++ "/"

theorem below_ofString (path : String) (name : Bytes) :
    below (some (Bytes.ofString path)) name = Bytes.ofString (front path) ++ name := by
  have hslash : Bytes.ofString "/" = root := by decide +kernel
  have hbase : (if Bytes.ofString path = root then [] else Bytes.ofString path) =
      Bytes.ofString (if path = "/" then "" else path) := by
    simp only [← hslash, Bytes.ofString_inj]
    split <;> rfl
  rw [below_some, hbase, front, Bytes.ofString_append, hslash, List.append_assoc]
  rfl

/-- The name of a node that can be joined to a path and told from the rest of it. -/
structure IsPart (name : Bytes) : Prop where
  ne_nil : name ≠ []
  slash_notMem : slash ∉ name
  exists_text : ∃ s, name.text = .ok s

instance (name : Bytes) : Decidable (IsPart name) :=
  decidable_of_iff (name ≠ [] ∧ slash ∉ name ∧ name.text.toOption.isSome = true) <| by
    constructor
    · rintro ⟨hne, hslash, htext⟩
      refine ⟨hne, hslash, ?_⟩
      cases hs : name.text with
      | error e => simp [hs, Except.toOption] at htext
      | ok s => exact ⟨s, rfl⟩
    · rintro ⟨hne, hslash, s, hs⟩
      exact ⟨hne, hslash, by rw [hs]; rfl⟩

end Path

namespace Token

def name? : Token → Option Bytes
  | .beginNode name => some name
  | .endNode | .property _ _ | .nop => none

variable {T : List Token}

/-- The two nodes have one name and begin inside one node. -/
def AreNamesakes (T : List Token) (j k : Nat) : Prop :=
  ∃ i name, IsInnermost T i j ∧ IsInnermost T i k ∧ T[j]? = some (.beginNode name) ∧
    T[k]? = some (.beginNode name)

/-- There is one top-level node and its name is not a path, and the names below it are parts of
paths that tell siblings apart. -/
structure IsWellNamed (T : List Token) : Prop where
  hasOneTop : HasOneTop T
  first : ∀ k name, T[k]? = some (.beginNode name) → begins (T.take k) = 0 →
    name.head? ≠ some Path.slash
  later : ∀ k name, T[k]? = some (.beginNode name) → begins (T.take k) ≠ 0 → Path.IsPart name
  siblings : ∀ j k, AreNamesakes T j k → j = k

theorem areNamesakes_iff {j k : Nat} : AreNamesakes T j k ↔ (T[k]?.any isBegin) = true ∧
    T[j]? = T[k]? ∧ (openAt T j).head? = (openAt T k).head? ∧ openAt T k ≠ [] := by
  constructor
  · rintro ⟨i, name, hj, hk, hnamej, hnamek⟩
    have hj := (isInnermost_iff (Nat.le_of_lt (List.getElem?_eq_some_iff.1 hnamej).1)).1 hj
    have hk := (isInnermost_iff (Nat.le_of_lt (List.getElem?_eq_some_iff.1 hnamek).1)).1 hk
    refine ⟨any_isBegin_iff.2 ⟨name, hnamek⟩, hnamej.trans hnamek.symm, hj.trans hk.symm, ?_⟩
    rintro hnil
    simp [hnil] at hk
  · rintro ⟨hbegin, heq, hhead, hne⟩
    obtain ⟨name, hnamek⟩ := any_isBegin_iff.1 hbegin
    have hnamej := heq.trans hnamek
    obtain ⟨i, hi⟩ := Option.isSome_iff_exists.1 (List.isSome_head?.2 hne)
    have hj := Nat.le_of_lt (List.getElem?_eq_some_iff.1 hnamej).1
    have hk := Nat.le_of_lt (List.getElem?_eq_some_iff.1 hnamek).1
    exact ⟨i, name, (isInnermost_iff hj).2 (hhead.trans hi), (isInnermost_iff hk).2 hi, hnamej,
      hnamek⟩

instance (T : List Token) (j k : Nat) : Decidable (AreNamesakes T j k) :=
  decidable_of_iff _ areNamesakes_iff.symm

theorem bind_name?_eq_some_iff {k : Nat} {name : Bytes} :
    T[k]?.bind name? = some name ↔ T[k]? = some (.beginNode name) := by
  cases T[k]? with
  | none => simp
  | some t => cases t <;> simp [name?]

theorem isWellNamed_iff : IsWellNamed T ↔ HasOneTop T ∧
    (∀ k < T.length, ∀ name ∈ T[k]?.bind name?,
      if begins (T.take k) = 0 then name.head? ≠ some Path.slash else Path.IsPart name) ∧
    ∀ j < T.length, ∀ k < T.length, AreNamesakes T j k → j = k := by
  have hlt : ∀ {k name}, T[k]? = some (.beginNode name) → k < T.length :=
    fun hname => (List.getElem?_eq_some_iff.1 hname).1
  constructor
  · rintro ⟨htop, hfirst, hlater, hsiblings⟩
    refine ⟨htop, ?_, fun j _ k _ => hsiblings j k⟩
    intro k _ name hname
    have hname := bind_name?_eq_some_iff.1 hname
    split
    · exact hfirst k name hname ‹_›
    · exact hlater k name hname ‹_›
  · rintro ⟨htop, hnames, hsiblings⟩
    have hnames := fun k name hname =>
      hnames k (hlt hname) name (bind_name?_eq_some_iff.2 hname)
    constructor
    case hasOneTop => exact htop
    case first =>
      intro k name hname hzero
      simpa only [hzero, if_true] using hnames k name hname
    case later =>
      intro k name hname hne
      simpa only [hne, if_false] using hnames k name hname
    case siblings =>
      rintro j k ⟨i, name, hj, hk, hnamej, hnamek⟩
      exact hsiblings j (hlt hnamej) k (hlt hnamek) ⟨i, name, hj, hk, hnamej, hnamek⟩

instance (T : List Token) : Decidable (IsWellNamed T) := decidable_of_iff _ isWellNamed_iff.symm

end Token

theorem Tree.pathBytes_of_findByPath {t : Tree} {n : Node} {path : String}
    (h : t.findByPath path = some n) : n ∈ t.nodes ∧ n.pathBytes = Bytes.ofString path := by
  have hfound := List.find?_some (p := fun k : Node => k.pathBytes = Bytes.ofString path) h
  exact ⟨List.mem_of_find?_eq_some h, of_decide_eq_true hfound⟩

/-- Paths lead down from the root by the names of the nodes, tell all nodes apart, and find them
again. -/
structure Tree.HasPaths (T : List Token) (t : Tree) : Prop where
  root : t.root.path = .ok "/"
  /-- Every other node has the name that its token gives it. -/
  below : ∀ n ∈ t.nodes, n ≠ t.root → ∃ k name p unit path,
    T[k]? = some (.beginNode name) ∧ t.nodes[Token.begins (T.take k)]? = some n ∧
      n.parent = some p ∧ name.text = .ok unit ∧ n.unitName = .ok unit ∧ p.path = .ok path ∧
      n.path = .ok ((if path = "/" then "" else path) ++ "/" ++ unit)
  injective : ∀ m ∈ t.nodes, ∀ n ∈ t.nodes, m.path = n.path → m = n
  findByPath : ∀ n ∈ t.nodes, ∃ path, n.path = .ok path ∧ t.findByPath path = some n

namespace Build

open Token

variable {b : Blob} {heap : Heap} {t : Tree} {m n : Node}

theorem pathBytes_root (h : (build b heap).result = .ok t)
    (hnamed : IsWellNamed b.tokens.tokens) : t.root.pathBytes = Path.root := by
  obtain ⟨hlinked, -, -⟩ := linked_of_build h
  obtain ⟨k, name, hname, hindex, hmeans⟩ := exists_means_of_node h (n := t.root) rfl
  exact hmeans.path_of_no_parent (hnamed.first k name hname hindex.symm)
    (Tree.parent_root hlinked)

theorem exists_part_of_ne_root (h : (build b heap).result = .ok t)
    (hnamed : IsWellNamed b.tokens.tokens) (hn : n.tree = t) (hne : n ≠ t.root) :
    ∃ k name i p, b.tokens.tokens[k]? = some (.beginNode name) ∧
      n.index = begins (b.tokens.tokens.take k) ∧ IsInnermost b.tokens.tokens i k ∧
      p.tree = t ∧ p.index = begins (b.tokens.tokens.take i) ∧ n.parent = some p ∧
      Path.IsPart name ∧ n.pathBytes = Path.below (some p.pathBytes) name := by
  obtain ⟨k, name, i, p, hname, hindex, hmeans, hi, hp, hparent⟩ :=
    exists_parent_of_hasOneTop h hnamed.hasOneTop hn hne
  have hpart := hnamed.later k name hname (hindex ▸ ne_root_of_index hn hne)
  have hslash : name.head? ≠ some Path.slash :=
    fun hhead => hpart.slash_notMem (List.mem_of_mem_head? hhead)
  obtain ⟨htree, hposition⟩ := (getElem?_nodes_of_build h).1 hp
  exact ⟨k, name, i, p, hname, hindex, hi, htree, hposition, hparent, hpart,
    hmeans.path_of_parent p hslash hparent⟩

theorem pathBytes_ne_nil (h : (build b heap).result = .ok t)
    (hnamed : IsWellNamed b.tokens.tokens) (hn : n.tree = t) : n.pathBytes ≠ [] := by
  by_cases hroot : n = t.root
  · rw [hroot, pathBytes_root h hnamed]
    exact List.cons_ne_nil _ _
  · obtain ⟨-, name, -, p, -, -, -, -, -, -, -, hpath⟩ := exists_part_of_ne_root h hnamed hn hroot
    rw [hpath]
    exact Path.below_ne_nil _ _

/-- Nodes with one path are one node: their parents are, and siblings have different names. -/
theorem eq_of_pathBytes_eq (h : (build b heap).result = .ok t)
    (hnamed : IsWellNamed b.tokens.tokens) (hm : m.tree = t) (hn : n.tree = t)
    (heq : m.pathBytes = n.pathBytes) : m = n := by
  obtain ⟨hlinked, -, -⟩ := linked_of_build h
  have hroot := pathBytes_root h hnamed
  induction hi : m.index using Nat.strongRecOn generalizing m n with
  | _ i ih =>
    by_cases hmr : m = t.root
    · by_cases hnr : n = t.root
      · rw [hmr, hnr]
      · obtain ⟨-, name, -, q, -, -, -, -, -, -, hpart, hpath⟩ :=
          exists_part_of_ne_root h hnamed hn hnr
        rw [hmr, hroot, hpath] at heq
        exact absurd heq.symm (Path.below_ne_root hpart.ne_nil)
    · obtain ⟨j, name, i', p, hj, hmj, hinner, hp, hpi, hparent, hpart, hpath⟩ :=
        exists_part_of_ne_root h hnamed hm hmr
      by_cases hnr : n = t.root
      · rw [hnr, hroot, hpath] at heq
        exact absurd heq (Path.below_ne_root hpart.ne_nil)
      · obtain ⟨k, name', i'', q, hk, hnk, hinner', hq, hqi, -, hpart', hpath'⟩ :=
          exists_part_of_ne_root h hnamed hn hnr
        rw [hpath, hpath'] at heq
        obtain ⟨hparents, rfl⟩ := Path.below_inj (pathBytes_ne_nil h hnamed hp)
          (pathBytes_ne_nil h hnamed hq) hpart.slash_notMem hpart'.slash_notMem heq
        have hlt : p.index < i := by
          rw [← hi]
          exact hlinked.parent_lt (hm ▸ (Node.parent_eq_some_iff.1 hparent).2)
        obtain rfl := ih p.index hlt hp hq hparents rfl
        obtain ⟨_, hbegin⟩ := hinner.1.isBegin
        obtain ⟨_, hbegin'⟩ := hinner'.1.isBegin
        obtain rfl := Draft.begins_take_inj hbegin hbegin' (hpi.symm.trans hqi)
        obtain rfl := hnamed.siblings j k ⟨i', name, hinner, hinner', hj, hk⟩
        exact Node.eq_of_index_eq hm hn (hmj.trans hnk.symm)

theorem text_below {parent name : Bytes} {path unit : String} (hparent : parent.text = .ok path)
    (hname : name.text = .ok unit) :
    (Path.below (some parent) name).text =
      .ok ((if path = "/" then "" else path) ++ "/" ++ unit) := by
  rw [Bytes.text_eq_ok_iff] at *
  subst hparent hname
  rw [Path.below_ofString, Path.front, ← Bytes.ofString_append]

theorem exists_path (h : (build b heap).result = .ok t) (hnamed : IsWellNamed b.tokens.tokens)
    (hn : n.tree = t) : ∃ path, n.path = .ok path := by
  obtain ⟨hlinked, -, -⟩ := linked_of_build h
  induction hi : n.index using Nat.strongRecOn generalizing n with
  | _ i ih =>
    by_cases hroot : n = t.root
    · rw [hroot, Node.path, pathBytes_root h hnamed]
      exact ⟨"/", Bytes.text_eq_ok_iff.2 (by decide +kernel)⟩
    · obtain ⟨-, name, -, p, -, -, -, hp, -, hparent, hpart, hpath⟩ :=
        exists_part_of_ne_root h hnamed hn hroot
      have hlt : p.index < i := by
        rw [← hi]
        exact hlinked.parent_lt (hn ▸ (Node.parent_eq_some_iff.1 hparent).2)
      obtain ⟨path, hparentPath⟩ := ih p.index hlt hp rfl
      obtain ⟨unit, hunit⟩ := hpart.exists_text
      rw [Node.path, hpath]
      exact ⟨_, text_below hparentPath hunit⟩

/-- In a tree of well named nodes paths are made of the names in the blob and identify nodes. -/
theorem hasPaths_of_build (h : (build b heap).result = .ok t)
    (hnamed : IsWellNamed b.tokens.tokens) : t.HasPaths b.tokens.tokens := by
  have hmem : ∀ n : Node, n ∈ t.nodes ↔ n.tree = t := fun _ => mem_nodes_of_build h
  constructor
  case root =>
    rw [Node.path, pathBytes_root h hnamed]
    exact Bytes.text_eq_ok_iff.2 (by decide +kernel)
  case below =>
    intro n hn hne
    have hn := (hmem n).1 hn
    obtain ⟨k, name, -, p, hname, hindex, -, hp, -, hparent, hpart, hpath⟩ :=
      exists_part_of_ne_root h hnamed hn hne
    obtain ⟨unit, hunit⟩ := hpart.exists_text
    obtain ⟨path, hparentPath⟩ := exists_path h hnamed hp
    refine ⟨k, name, p, unit, path, hname, ?_, hparent, hunit, ?_, hparentPath, ?_⟩
    · exact (getElem?_nodes_of_build h).2 ⟨hn, hindex⟩
    · rw [Node.unitName, hpath, Path.unitName_below hpart.slash_notMem, hunit]
    · rw [Node.path, hpath]
      exact text_below hparentPath hunit
  case injective =>
    intro m hm n hn heq
    obtain ⟨path, hpath⟩ := exists_path h hnamed ((hmem n).1 hn)
    have hbytes : m.pathBytes = n.pathBytes :=
      (Bytes.text_eq_ok_iff.1 (heq.trans hpath)).trans (Bytes.text_eq_ok_iff.1 hpath).symm
    exact eq_of_pathBytes_eq h hnamed ((hmem m).1 hm) ((hmem n).1 hn) hbytes
  case findByPath =>
    intro n hn
    obtain ⟨path, hpath⟩ := exists_path h hnamed ((hmem n).1 hn)
    have hbytes := Bytes.text_eq_ok_iff.1 hpath
    refine ⟨path, hpath, ?_⟩
    have hsome : (t.findByPath path).isSome = true :=
      List.find?_isSome.2 ⟨n, hn, decide_eq_true hbytes⟩
    obtain ⟨m, hm⟩ := Option.isSome_iff_exists.1 hsome
    obtain ⟨hfound, hbytes'⟩ := Tree.pathBytes_of_findByPath hm
    rw [hm, eq_of_pathBytes_eq h hnamed ((hmem m).1 hfound) ((hmem n).1 hn)
      (hbytes'.trans hbytes.symm)]

theorem hasPaths_of_build_sample :
    ∃ t, (build .sampleNested (.fresh 0)).result = .ok t ∧
      IsWellNamed (Blob.tokens .sampleNested).tokens ∧
      t.HasPaths (Blob.tokens .sampleNested).tokens := by
  have hcheck : (build .sampleNested (.fresh 0)).result.toOption.map Tree.nodeCount = some 4 := by
    decide +kernel
  obtain ⟨t, ht, -⟩ := exists_of_result hcheck
  have hnamed : IsWellNamed (Blob.tokens .sampleNested).tokens := by decide +kernel
  exact ⟨t, ht, hnamed, hasPaths_of_build ht hnamed⟩

end Build
end Devicetree
