import Devicetree.Proofs.Faults
import Devicetree.Proofs.Names

/-!
# Texts of paths

Paths are joined and cut as bytes, and read as texts only when asked for. The marks at which that is
done are characters of one byte, which no other character contains, so no cut is made inside a
character. A path is a text just if every part of it is one. Where the last part is the only one
that is none, its fault is that of the path, behind the bytes in front of it.
-/

namespace Devicetree

/-! ## Cutting texts at marks -/

namespace Text

structure IsBehindLast (mark : Char) (s part : String) : Prop where
  notMem : mark ∉ part.toList
  split : ∃ front, s.toList = front ++ mark :: part.toList

structure IsBeforeFirst (mark : Char) (s part : String) : Prop where
  notMem : mark ∉ part.toList
  split : s = part ∨ ∃ rest, s.toList = part.toList ++ mark :: rest

end Text

section Cut

variable {m : UInt8} {mark : Char} {front back b part : Bytes} {chars : List Char} {s : String}

/-- What stands around a mark in the encoding of characters encodes those around it. -/
theorem Utf8.exists_of_flatMap_eq_append (hmark : Spells [m] mark)
    (h : chars.flatMap String.utf8EncodeChar = front ++ m :: back) :
    ∃ before after, chars = before ++ mark :: after ∧
      front = before.flatMap String.utf8EncodeChar ∧
      back = after.flatMap String.utf8EncodeChar := by
  induction chars generalizing front with
  | nil => simp at h
  | cons c more ih =>
    have hbehind : ∀ {front'}, front = String.utf8EncodeChar c ++ front' →
        more.flatMap String.utf8EncodeChar = front' ++ m :: back →
        ∃ before after, c :: more = before ++ mark :: after ∧
          front = before.flatMap String.utf8EncodeChar ∧
          back = after.flatMap String.utf8EncodeChar := by
      rintro front' rfl hmore
      obtain ⟨before, after, rfl, rfl, rfl⟩ := ih hmore
      exact ⟨c :: before, after, rfl, rfl, rfl⟩
    rw [List.flatMap_cons] at h
    rcases List.append_eq_append_iff.1 h with ⟨front', hfront, hmore⟩ | ⟨own, hown, hmore⟩
    · exact hbehind hfront hmore
    · cases own with
      | nil => exact @hbehind [] (by simpa using hown.symm) hmore.symm
      | cons x own =>
        -- the mark is one of the bytes of this character, so it is all of it
        obtain ⟨rfl, hback⟩ := List.cons.inj hmore
        have hmem : m ∈ String.utf8EncodeChar c := by simp [hown]
        obtain ⟨hone, rfl⟩ := (spells_utf8EncodeChar c).eq_of_mem hmark hmem
        rw [hone] at hown
        rcases List.append_eq_singleton_iff.1 hown.symm with ⟨rfl, hown⟩ | ⟨-, hown⟩
        · obtain ⟨-, rfl⟩ := List.cons.inj hown
          exact ⟨[], more, rfl, rfl, hback⟩
        · contradiction

theorem Bytes.exists_of_ofString_eq_append (hmark : Utf8.Spells [m] mark)
    (h : ofString s = front ++ m :: back) :
    ∃ before after, s.toList = before ++ mark :: after.toList ∧
      front = ofString (String.ofList before) ∧ back = ofString after := by
  obtain ⟨before, after, hs, rfl, rfl⟩ := Utf8.exists_of_flatMap_eq_append hmark h
  exact ⟨before, String.ofList after, by simpa using hs, (Utf8.ofString_ofList before).symm,
    (Utf8.ofString_ofList after).symm⟩

theorem Bytes.IsBehindLast.exists_text (h : IsBehindLast m b part) (hmark : Utf8.Spells [m] mark)
    (hs : b.text = .ok s) : ∃ t, part.text = .ok t ∧ Text.IsBehindLast mark s t := by
  obtain rfl := text_eq_ok_iff.1 hs
  obtain ⟨front, hsplit⟩ := h.split
  obtain ⟨before, t, hchars, -, rfl⟩ := exists_of_ofString_eq_append hmark hsplit
  exact ⟨t, text_ofString t, (mem_ofString_iff hmark).not.1 h.notMem, before, hchars⟩

theorem Bytes.IsBeforeFirst.exists_text (h : IsBeforeFirst m b part) (hmark : Utf8.Spells [m] mark)
    (hs : b.text = .ok s) : ∃ t, part.text = .ok t ∧ Text.IsBeforeFirst mark s t := by
  obtain rfl := text_eq_ok_iff.1 hs
  rcases h.split with rfl | ⟨rest, hsplit⟩
  · exact ⟨s, text_ofString s, (mem_ofString_iff hmark).not.1 h.notMem, .inl rfl⟩
  · obtain ⟨before, after, hchars, rfl, -⟩ := exists_of_ofString_eq_append hmark hsplit
    refine ⟨String.ofList before, text_ofString _, (mem_ofString_iff hmark).not.1 h.notMem, .inr ?_⟩
    exact ⟨after.toList, by simpa using hchars⟩

end Cut

/-! ## Texts of joined paths -/

theorem Path.spells_slash : Utf8.Spells [slash] '/' := .one rfl

theorem Path.spells_unitMark : Utf8.Spells [unitMark] '@' := .one rfl

section Below

variable {parent name : Bytes} {path : String} {f : Utf8.Fault}

theorem Bytes.exists_text_below_iff :
    (∃ s, (Path.below (some parent) name).text = .ok s) ↔
      (∃ path, parent.text = .ok path) ∧ ∃ unit, name.text = .ok unit := by
  constructor
  · rintro ⟨s, hs⟩
    have hsplit := (text_eq_ok_iff.1 hs).symm
    rw [Path.below_some] at hsplit
    obtain ⟨before, unit, -, hbase, rfl⟩ := exists_of_ofString_eq_append Path.spells_slash hsplit
    refine ⟨?_, unit, text_ofString unit⟩
    split at hbase
    · exact ⟨"/", ‹parent = Path.root› ▸ text_eq_ok_iff.2 (by decide +kernel)⟩
    · exact ⟨_, hbase ▸ text_ofString _⟩
  · rintro ⟨⟨path, hpath⟩, unit, hunit⟩
    exact ⟨_, Build.text_below hpath hunit⟩

theorem Bytes.text_below_of_fault (hparent : parent.text = .ok path)
    (hname : name.text = .error (.badText f)) :
    (Path.below (some parent) name).text =
      .error (.badText (f.shift (ofString (Path.front path)).length)) := by
  obtain rfl := text_eq_ok_iff.1 hparent
  rw [Path.below_ofString]
  exact text_append (Path.front path) hname

end Below

/-- What reading a node's path answers, by what reading its parent's path and its own name does: a
text just if both are texts, and the fault of the name if only the name is none. -/
structure Node.ReadsBelow (n p : Node) (name : Bytes) : Prop where
  exists_path_iff : (∃ s, n.path = .ok s) ↔ (∃ s, p.path = .ok s) ∧ ∃ unit, name.text = .ok unit
  path : ∀ s unit, p.path = .ok s → name.text = .ok unit → n.path = .ok (Path.front s ++ unit)
  fault : ∀ s e, p.path = .ok s → name.text = .error e →
    n.pathBytes = Bytes.ofString (Path.front s) ++ name ∧ ∃ f, e = .badText f ∧
      n.path = .error (.badText (f.shift (Bytes.ofString (Path.front s)).length))

/-- What reading a node's path tells of the other texts that the node has, and what reading its
parent's path and its name in the blob tells of the path. -/
structure Node.ReadsAlong (n : Node) (name : Bytes) (listed : List (Bytes × Bytes)) : Prop where
  unitName : ∀ s, n.path = .ok s → ∃ unit, n.unitName = .ok unit ∧ Text.IsBehindLast '/' s unit ∧
    (nameKey ∉ listed.map Prod.fst → ∃ p short, n.IsNamedByPath listed p ∧
      n.name = .ok short ∧ Text.IsBeforeFirst '@' unit short)
  below : ∀ p, n.parent = some p → name.head? ≠ some Path.slash → n.ReadsBelow p name

theorem Node.exists_unitName {n : Node} {s : String} (hslash : Path.slash ∈ n.pathBytes)
    (hs : n.path = .ok s) : ∃ unit, n.unitName = .ok unit ∧ Text.IsBehindLast '/' s unit :=
  (Path.isBehindLast_unitName hslash).exists_text Path.spells_slash hs

theorem Node.IsNamedByPath.exists_name {n : Node} {listed : List (Bytes × Bytes)} {p : Property}
    {unit : String} (h : n.IsNamedByPath listed p) (hunit : n.unitName = .ok unit) :
    ∃ short, n.name = .ok short ∧ Text.IsBeforeFirst '@' unit short := by
  obtain ⟨part, -, hpart, hshort⟩ := h.name
  exact hshort.exists_text Path.spells_unitMark (hpart.symm.trans hunit)

theorem Node.readsBelow {n p : Node} {name : Bytes}
    (h : n.pathBytes = Path.below (some p.pathBytes) name) : n.ReadsBelow p name := by
  constructor
  case exists_path_iff =>
    rw [path, h]
    exact Bytes.exists_text_below_iff
  case path =>
    intro s unit hs hunit
    rw [path, h]
    exact Build.text_below hs hunit
  case fault =>
    intro s e hs he
    obtain ⟨f, rfl, -⟩ := Bytes.text_eq_error_iff.1 he
    refine ⟨?_, f, rfl, ?_⟩
    · rw [h, Bytes.text_eq_ok_iff.1 hs, Path.below_ofString]
    · rw [path, h]
      exact Bytes.text_below_of_fault hs he

namespace Build

open Token

/-- In a tree of less than 4 GiB, a node whose path is a text has a text for the last part of it,
and for the name that is made of that. Below a parent the path is a text just if the parent's path
and the name in the blob are; if only the name is none, the path has the fault of the name, so many
bytes further behind as stand in front of the name. -/
theorem readsAlong_of_build {b : Blob} {heap : Heap} {t : Tree}
    (h : (build b heap).result = .ok t) (hsize : t.size < 2 ^ 32) :
    (∀ bytes : Bytes, bytes.ReadsAs bytes.text) ∧
    ∀ n ∈ t.nodes, ∃ k name listed, b.tokens.tokens[k]? = some (.beginNode name) ∧
      t.nodes[begins (b.tokens.tokens.take k)]? = some n ∧
      Named (fun off => b.stringAt off.toUInt64) (header b.tokens.tokens k) listed ∧
      n.ReadsAlong name listed := by
  refine ⟨Bytes.readsAs_text, fun n hmem => ?_⟩
  have hn := (mem_nodes_of_build h).1 hmem
  have hkept : n.record.IsKept := isKept_of_build h _ (hn ▸ List.getElem_mem n.index_lt)
  have hbounds : n.InBounds := inBounds_of_build h hsize (.nodes hmem)
  obtain ⟨k, name, hname, hindex, hmeans⟩ := exists_means_of_node h hn
  obtain ⟨⟨parent, hpath⟩, listed, hnamed, hlists⟩ := exists_lists_of_begin h hn hname hindex
  have hslash : Path.slash ∈ n.pathBytes := hpath ▸ Path.slash_mem_join parent name
  refine ⟨k, name, listed, hname, (getElem?_nodes_of_build h).2 ⟨hn, hindex⟩, hnamed, ?_, ?_⟩
  · intro s hs
    obtain ⟨unit, hunit, hbehind⟩ := Node.exists_unitName hslash hs
    refine ⟨unit, hunit, hbehind, fun hnot => ?_⟩
    obtain ⟨p, hp⟩ := Node.exists_isNamedByPath hlists hnot hkept hslash hbounds
    obtain ⟨short, hshort, hbefore⟩ := hp.exists_name hunit
    exact ⟨p, short, hp, hshort, hbefore⟩
  · intro p hparent hhead
    exact Node.readsBelow (hmeans.path_of_parent p hhead hparent)

end Build

/-- A root with a node whose name ends inside a character, a node below that one, and a node whose
name is a text. -/
def Blob.sampleUndecodable : Blob where
  address := 0x1000
  bytes := List.flatMap Bytes.ofWord32
    [0xd00dfeed, 96, 40, 96, 40, 17, 16, 0, 0, 56,
      1, 0, 1, 0xe2820000, 1, 0x78000000, 2, 2, 1, 0xc3a94031, 0, 2, 2, 9]
  headerSize_le := by decide +kernel
  length_lt := by decide +kernel

namespace Build

open Token

theorem readsAlong_of_build_sample :
    ∃ t m n q, (build .sampleUndecodable (.fresh 0)).result = .ok t ∧ t.size < 2 ^ 32 ∧
      t.nodes[1]? = some m ∧ t.nodes[2]? = some n ∧ t.nodes[3]? = some q ∧
      m.path = .error (.badText ⟨1, none⟩) ∧ (∀ s, n.path ≠ .ok s) ∧
      ∃ unit short, q.unitName = .ok unit ∧ Text.IsBehindLast '/' "/é@1" unit ∧
        q.name = .ok short ∧ Text.IsBeforeFirst '@' unit short := by
  have hcheck : ((build .sampleUndecodable (.fresh 0)).result.toOption.map fun t =>
      (t.size, t.nodes.map fun n => (n.pathBytes, n.parent.map Node.pathBytes))) =
      some (668, [([0x2f], none), ([0x2f, 0xe2, 0x82], some [0x2f]),
        ([0x2f, 0xe2, 0x82, 0x2f, 0x78], some [0x2f, 0xe2, 0x82]),
        (Bytes.ofString "/é@1", some [0x2f])]) := by
    decide +kernel
  obtain ⟨t, ht, hchecked⟩ := exists_of_result hcheck
  obtain ⟨hsize, hnodes⟩ := Prod.mk.inj hchecked
  have hlt : t.size < 2 ^ 32 := by omega
  obtain ⟨-, hreads⟩ := readsAlong_of_build ht hlt
  -- What is read along a node that begins at a known token and has known paths.
  have hnode : ∀ i j name path parent,
      (t.nodes.map fun n => (n.pathBytes, n.parent.map Node.pathBytes))[i]? =
        some (path, parent) →
      (Blob.tokens .sampleUndecodable).tokens[j]? = some (.beginNode name) →
      begins ((Blob.tokens .sampleUndecodable).tokens.take j) = i →
      ∃ n listed, t.nodes[i]? = some n ∧ n.pathBytes = path ∧
        n.parent.map Node.pathBytes = parent ∧
        Named (fun off => Blob.stringAt .sampleUndecodable off.toUInt64)
          (header (Blob.tokens .sampleUndecodable).tokens j) listed ∧
        n.ReadsAlong name listed := by
    intro i j name path parent hx hj hi
    rw [List.getElem?_map, Option.map_eq_some_iff] at hx
    obtain ⟨n, hn, hx⟩ := hx
    obtain ⟨hpath, hparent⟩ := Prod.mk.inj hx
    obtain ⟨k, name', listed, hk, hindex, hnamed, hreads⟩ := hreads n (List.mem_of_getElem? hn)
    obtain ⟨rfl, rfl⟩ := begin_eq_of_getElem?_nodes ht hk hj hindex (hi ▸ hn)
    exact ⟨n, listed, hn, hpath, hparent, hnamed, hreads⟩
  rw [hnodes] at hnode
  obtain ⟨m, _, hm, -, hmparent, -, hmreads⟩ :=
    hnode 1 1 [0xe2, 0x82] _ _ rfl (by decide +kernel) (by decide +kernel)
  obtain ⟨n, _, hn, -, hnparent, -, hnreads⟩ :=
    hnode 2 2 [0x78] _ _ rfl (by decide +kernel) (by decide +kernel)
  obtain ⟨q, listed, hq, hqpath, -, hqnamed, hqreads⟩ :=
    hnode 3 5 (Bytes.ofString "é@1") _ _ rfl (by decide +kernel) (by decide +kernel)
  refine ⟨t, m, n, q, ht, hlt, hm, hn, hq, ?_, ?_, ?_⟩
  · obtain ⟨p, hp, hpath⟩ := Option.map_eq_some_iff.1 hmparent
    have hroot : p.path = .ok "/" := Bytes.text_eq_ok_iff.2 (hpath.trans (by decide +kernel))
    obtain ⟨-, f, hf, hfault⟩ :=
      (hmreads.below p hp (by decide)).fault "/" (.badText ⟨0, none⟩) hroot rfl
    cases hf
    exact hfault
  · intro s hs
    obtain ⟨p, hp, hpath⟩ := Option.map_eq_some_iff.1 hnparent
    obtain ⟨⟨s', hs'⟩, -⟩ := (hnreads.below p hp (by decide)).exists_path_iff.1 ⟨s, hs⟩
    rw [Node.path, hpath] at hs'
    contradiction
  · have hpath : q.path = .ok "/é@1" := Bytes.text_eq_ok_iff.2 hqpath
    have hheader : header (Blob.tokens .sampleUndecodable).tokens 5 = [] := by decide +kernel
    rw [hheader] at hqnamed
    cases hqnamed
    obtain ⟨unit, hunit, hbehind, hsynthesized⟩ := hqreads.unitName _ hpath
    obtain ⟨-, short, -, hshort, hbefore⟩ := hsynthesized (by simp)
    exact ⟨unit, short, hunit, hbehind, hshort, hbefore⟩

end Build
end Devicetree
