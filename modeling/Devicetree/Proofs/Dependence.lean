import Devicetree.Proofs.Device
import Devicetree.Proofs.Likeness
import Devicetree.Proofs.Relocation

/-!
# What a tree depends on

A build looks at a blob through its tokens, padding tokens aside and with the names of properties
looked up, and at a heap through its grants. Blobs and heaps that look alike in this way have the
same tree, at the same blocks counted from where each heap was.
-/

namespace Devicetree

inductive Token.Resolved
  | beginNode (name : Bytes)
  | endNode
  | property (name : Except Error Bytes) (value : Bytes)
  | nop
  deriving DecidableEq

def Token.resolve (nameAt : UInt32 → Except Error Bytes) : Token → Resolved
  | .beginNode name => .beginNode name
  | .endNode => .endNode
  | .property nameOffset value => .property (nameAt nameOffset) value
  | .nop => .nop

/-- The tokens of a blob without padding tokens and with all names looked up, and how reading
them ended. -/
def Blob.resolved (b : Blob) : List Token.Resolved × Except Error Unit :=
  ((b.tokens.tokens.filter (· ≠ .nop)).map (Token.resolve fun off => b.stringAt off.toUInt64),
    b.tokens.outcome)

/-- What can be asked of a node by itself, its relatives being given by their positions. -/
structure Node.Dump where
  path : Except Error String
  unitName : Except Error String
  name : Except Error String
  deviceType : Except Error String
  phandle : Option UInt32
  parent : Option Nat
  children : List Nat
  properties : List (Except Error String × Bytes)

def Node.dump (n : Node) : Node.Dump where
  path := n.path
  unitName := n.unitName
  name := n.name
  deviceType := n.deviceType
  phandle := n.phandle
  parent := n.parent.map Node.index
  children := n.children.map Node.index
  properties := n.properties.map fun p => (p.name, p.value)

def Tree.dump (t : Tree) : List Node.Dump := t.nodes.map Node.dump

namespace Outline

variable {nameAt nameAt' : UInt32 → Except Error Bytes} {outcome : Except Error Unit}
  {tokens tokens' : List Token}

/-- Where names are looked up does not matter to an outline. -/
theorem ofTokens_congr (h : tokens.map (Token.resolve nameAt) = tokens'.map (Token.resolve nameAt'))
    (place : Place) :
    ofTokens nameAt outcome place tokens = ofTokens nameAt' outcome place tokens' := by
  induction tokens generalizing place tokens' with
  | nil =>
    obtain rfl := List.map_eq_nil_iff.1 h.symm
    cases outcome <;> cases place <;> rfl
  | cons t rest ih =>
    obtain ⟨t', rest', rfl, ht, hrest⟩ := List.map_eq_cons_iff.1 h.symm
    have ih := ih hrest.symm
    cases t <;> cases t' <;> simp only [Token.resolve, reduceCtorEq] at ht <;> cases place <;>
      simp_all [ofTokens]

end Outline

theorem Blob.outline_congr {a b : Blob} (h : a.resolved = b.resolved) : a.outline = b.outline := by
  obtain ⟨htokens, houtcome⟩ := Prod.mk.inj h
  unfold outline
  dsimp only
  rw [houtcome, ← Outline.ofTokens_filter, ← Outline.ofTokens_filter _ _ _ b.tokens.tokens]
  exact Outline.ofTokens_congr htokens _

theorem map_eq_map_of_forall₂ {α β γ : Type} {R : α → β → Prop} {f : α → γ} {g : β → γ}
    {l : List α} {l' : List β} (hl : List.Forall₂ R l l') (hfg : ∀ a b, R a b → f a = g b) :
    l.map f = l'.map g := by
  rw [← List.forall₂_eq_eq_eq]
  exact List.rel_map (P := Eq) (fun {a b} => hfg a b) hl

namespace Node

variable {m n : Node}

theorem forall₂_twin_places {s t : Tree} (h : s.Twin t) :
    List.Forall₂ Twin s.places t.places := by
  rw [List.forall₂_iff_get]
  refine ⟨by simp [h.records], fun i hi hi' => ?_⟩
  simp only [Tree.places, List.get_eq_getElem, List.getElem_map, List.getElem_finRange]
  exact ⟨h, rfl⟩

theorem Twin.follow {s t : Tree} (h : s.Twin t) (link : NodeRecord → Option Nat)
    (next : Option Nat) :
    List.Forall₂ Twin (follow link next s.places) (follow link next t.places) :=
  forall₂_follow (fun _ _ hmn => ⟨hmn.index, hmn.record⟩) (forall₂_twin_places h) link next

theorem Twin.dump (h : m.Twin n) : m.dump = n.dump := by
  have hparent : m.parent.map Node.index = n.parent.map Node.index := by
    unfold Node.parent
    rw [h.record]
    cases n.record.parent with
    | none => rfl
    | some i => simp [Tree.node?, h.tree.records]
  have hchildren : m.children.map Node.index = n.children.map Node.index := by
    unfold Node.children
    rw [h.record]
    exact map_eq_map_of_forall₂ (Twin.follow h.tree _ _) fun _ _ hc => hc.index
  have hproperties : m.properties.map (fun p => (p.name, p.value)) =
      n.properties.map fun p => (p.name, p.value) := by
    simp only [Node.properties, List.map_map, ← h.record]
    refine List.map_congr_left fun q hq => ?_
    exact congrArg (Prod.mk q.name.text) (h.tree.value m.record (List.get_mem _ _) q hq)
  simp only [Node.dump, hparent, hchildren, hproperties, h.nameBytes, h.typeBytes, Node.path,
    Node.unitName, Node.name, Node.deviceType, Node.phandle, Node.pathBytes, h.record]

end Node

theorem Tree.Twin.dump {s t : Tree} (h : s.Twin t) : s.dump = t.dump :=
  map_eq_map_of_forall₂ (Node.Twin.follow h _ _) fun _ _ hmn => hmn.dump

/-- The same records, written for another blob. -/
def Tree.withBlob (imprint : Blob → List NodeRecord → Nat → UInt8) (b : Blob) (t : Tree) : Tree :=
  { t with blob := b, imprint := imprint b t.records }

namespace Build

def Outcome.withBlob (imprint : Blob → List NodeRecord → Nat → UInt8) (b : Blob) (o : Outcome) :
    Outcome :=
  { o with result := o.result.map (Tree.withBlob imprint b) }

variable {a b : Blob}

theorem verify_withBlob (a b : Blob) (heap : Heap) (block : Block) (size : Nat)
    (p : Populating) :
    verify b heap block size p =
      (verify a heap block size p).map (Tree.withBlob heap.imprint b) := by
  unfold verify
  split <;> rfl

theorem populate_of_outline_eq (h : a.outline = b.outline) (size : Nat) :
    populate b size = populate a size := by
  unfold populate
  rw [h]

theorem finish_of_outline_eq (h : a.outline = b.outline) (heap : Heap) (block : Block)
    (size : Nat) (journal : List Entry) :
    finish b heap block size journal =
      (finish a heap block size journal).withBlob heap.imprint b := by
  unfold finish
  rw [populate_of_outline_eq h]
  cases populate a size with
  | error f => rfl
  | ok p =>
    dsimp only
    rw [verify_withBlob a b]
    cases verify a heap block size p <;> rfl

/-- A build reads the outline and nothing else of its blob. What it leaves in memory depends on the
blob only where records hold addresses. -/
theorem build_of_outline_eq (h : a.outline = b.outline) (heap : Heap) :
    build b heap = (build a heap).withBlob heap.imprint b := by
  have hmeasure : measure b heap = measure a heap := by
    unfold measure
    rw [h]
  have hkept := imprint_measure a heap
  unfold build
  rw [hmeasure]
  cases hm : measure a heap with
  | mk heap₁ answer =>
    rw [hm] at hkept
    cases answer with
    | error f => rfl
    | ok size =>
      dsimp only
      cases blockLayout size with
      | none => rfl
      | some layout =>
        have hkept₁ := (heap₁.imprint_allocate layout).trans hkept
        dsimp only
        cases ha : heap₁.allocate layout with
        | mk heap₂ granted =>
          rw [ha] at hkept₁
          cases granted with
          | none => rfl
          | some block => exact hkept₁ ▸ finish_of_outline_eq h heap₂ block size _

theorem dump_eq_of_records {heap other : Heap} {s t : Tree} (hs : (build a heap).result = .ok s)
    (ht : (build b other).result = .ok t) (hrecords : s.records = t.records)
    (hsize : s.size = t.size) (hlt : s.size < 2 ^ 32) : s.dump = t.dump :=
  (twin_of_build hs hrecords
    (.inl ⟨readsBack_of_build hs hlt, readsBack_of_build ht (hsize ▸ hlt)⟩)).dump

/-- Blobs with the same resolved tokens have the same tree or the same error, whatever else is in
them. On heaps that grant alike a build does the same things to both, up to where each heap was.
The records are the same in any case, and below 4 GiB so is all that is read of them. -/
theorem build_of_resolved_eq {heap other : Heap} (hresolved : a.resolved = b.resolved)
    (hgrants : ∀ i, heap.grants (heap.requests + i) = other.grants (other.requests + i)) :
    (∃ deeds : List Heap.Action,
      (build a heap).heap.trace = heap.trace ++ deeds.map (Heap.Action.on heap) ∧
      (build b other).heap.trace = other.trace ++ deeds.map (Heap.Action.on other)) ∧
    (build a heap).journal = (build b other).journal ∧
    ((∃ e, (build a heap).result = .error e ∧ (build b other).result = .error e) ∨
      ∃ s t, (build a heap).result = .ok s ∧ (build b other).result = .ok t ∧
        s.records = t.records ∧ s.size = t.size ∧ s.nodeCount = t.nodeCount ∧
        (s.size < 2 ^ 32 → s.dump = t.dump)) := by
  have hrenewed : other.renewed = heap.renewed := by
    unfold Heap.renewed
    simp only [Heap.mk.injEq, true_and, and_true]
    exact funext fun i => (hgrants i).symm
  have ha : build a heap = (build a heap.renewed).on heap := build_eq_on a heap
  have hb : build b other = ((build a heap.renewed).withBlob heap.renewed.imprint b).on other := by
    rw [build_eq_on, hrenewed, build_of_outline_eq (Blob.outline_congr hresolved)]
  refine ⟨?_, ?_, ?_⟩
  · rw [ha, hb]
    exact ⟨_, Heap.trace_after _ _, Heap.trace_after _ _⟩
  · rw [ha, hb]
    rfl
  · cases hresult : (build a heap.renewed).result with
    | error e =>
      have hs : (build a heap).result = .error e := by simp [ha, Outcome.on, hresult, Except.map]
      have ht : (build b other).result = .error e := by
        simp [hb, Outcome.on, Outcome.withBlob, hresult, Except.map]
      exact .inl ⟨e, hs, ht⟩
    | ok r =>
      have hs : (build a heap).result = .ok (r.on heap) := by
        simp [ha, Outcome.on, hresult, Except.map]
      have ht : (build b other).result = .ok ((r.withBlob heap.renewed.imprint b).on other) := by
        simp [hb, Outcome.on, Outcome.withBlob, hresult, Except.map]
      exact .inr ⟨_, _, hs, ht, rfl, rfl, rfl, dump_eq_of_records hs ht rfl rfl⟩

end Build

/-- The tree of the sample in a legacy blob: without a reservation map, with padding tokens
elsewhere and other names in front of the only one in use. -/
def Blob.sampleLegacy : Blob where
  address := 0x1000
  bytes := List.flatMap Bytes.ofWord32
    [0xd00dfeed, 124, 40, 116, 0, 3, 1, 7, 0, 0,
      1, 0, 4, 3, 4, 2, 1, 4, 1, 0x61403100, 2, 4, 2, 2, 1, 0x2f780000, 2, 4, 9,
      0x7a007265, 0x67000000]
  headerSize_le := by decide +kernel
  length_lt := by decide +kernel

namespace Build

theorem build_of_resolved_eq_sample :
    Blob.resolved .sample = Blob.resolved .sampleLegacy ∧ Blob.isLegacy .sample = false ∧
      Blob.isLegacy .sampleLegacy = true ∧
      ∃ s t, (build .sample (.fresh 0)).result = .ok s ∧
        (build .sampleLegacy { Heap.fresh 1 with requests := 6 }).result = .ok t ∧
        s.dump = t.dump ∧ s.nodeCount = 3 := by
  have hresolved : Blob.resolved .sample = Blob.resolved .sampleLegacy := by decide +kernel
  have hcheck : ((build .sample (.fresh 0)).result.toOption.map fun t => (t.size, t.nodeCount)) =
      some (540, 3) := by decide +kernel
  obtain ⟨s, hs, hchecked⟩ := exists_of_result hcheck
  obtain ⟨hsize, hcount⟩ := Prod.mk.inj hchecked
  refine ⟨hresolved, by decide +kernel, by decide +kernel, ?_⟩
  obtain ⟨-, -, ⟨e, he, -⟩ | ⟨s', t, hs', ht, -, -, -, hdump⟩⟩ :=
    @build_of_resolved_eq .sample .sampleLegacy (.fresh 0) { Heap.fresh 1 with requests := 6 }
      hresolved fun _ => rfl
  · rw [hs] at he
    contradiction
  · obtain rfl := Except.ok.inj (hs.symm.trans hs')
    exact ⟨s, t, hs, ht, hdump (by omega), hcount⟩

end Build
end Devicetree
