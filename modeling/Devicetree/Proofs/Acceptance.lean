import Devicetree.Proofs.Dependence
import Devicetree.Proofs.Headers

/-!
# Acceptance

What a buffer is taken as depends on its header, its address and its length, and on nothing behind
the size that the header declares. A blob that is copied somewhere else, whatever comes behind it
there, is read in the same way: an address is checked once and is never looked at again.
-/

namespace Devicetree

open Token

variable {a b : Blob}

namespace Token.Reader

theorem next_of_bytes_eq (r : Reader) (h : a.bytes = r.blob.bytes) :
    Reader.next ⟨a, r.offset⟩ = (r.next.1, ⟨a, r.next.2.offset⟩) := by
  have hversion : a.version = r.blob.version := by
    rw [Blob.version, Blob.version, Blob.headerWord, Blob.headerWord, h]
  have hlegacy : a.isLegacy = r.blob.isLegacy := by rw [Blob.isLegacy, Blob.isLegacy, hversion]
  simp only [next, h, hlegacy]

theorem stream_of_bytes_eq (r : Reader) (h : a.bytes = r.blob.bytes) :
    Reader.stream ⟨a, r.offset⟩ = r.stream := by
  fun_induction stream r with
  | case1 r t hnext rest ih =>
    have hmoved := next_of_bytes_eq r h
    have hone : (Reader.next ⟨a, r.offset⟩).1 = .ok (some t) := by rw [hmoved, hnext]
    rw [stream_of_next hone, hmoved, ih h]
  | case2 r hnext =>
    have hone : (Reader.next ⟨a, r.offset⟩).1 = .ok none := by rw [next_of_bytes_eq r h, hnext]
    rw [stream_of_next_none hone]
  | case3 r e hnext =>
    have hone : (Reader.next ⟨a, r.offset⟩).1 = .error e := by rw [next_of_bytes_eq r h, hnext]
    rw [stream_of_next_error hone]

end Token.Reader

namespace Blob

/-- Whatever is read from the one blob is read from the other, and so the same records are written.
Below 4 GiB the trees look the same. -/
structure ReadsAs (a b : Blob) : Prop where
  bytes : a.bytes = b.bytes
  next : ∀ off, Reader.next ⟨a, off⟩ =
    ((Reader.next ⟨b, off⟩).1, ⟨a, (Reader.next ⟨b, off⟩).2.offset⟩)
  stream : ∀ off, Reader.stream ⟨a, off⟩ = Reader.stream ⟨b, off⟩
  tokens : a.tokens = b.tokens
  stringAt : ∀ off, a.stringAt off = b.stringAt off
  build : ∀ heap, Devicetree.build a heap = (Devicetree.build b heap).withBlob heap.imprint a
  dump : ∀ heap s t, (Devicetree.build a heap).result = .ok s →
    (Devicetree.build b heap).result = .ok t → s.size < 2 ^ 32 → s.dump = t.dump

/-- The address of a blob does not matter to what is read from it. -/
theorem readsAs_of_bytes_eq (h : a.bytes = b.bytes) : a.ReadsAs b := by
  have hword : ∀ off, a.headerWord off = b.headerWord off := by
    intro off
    rw [headerWord, headerWord, h]
  have hstringAt : ∀ off, a.stringAt off = b.stringAt off := by
    intro off
    simp only [stringAt, stringsOffset, hword, h]
  have hstream : ∀ off, Reader.stream ⟨a, off⟩ = Reader.stream ⟨b, off⟩ :=
    fun off => Reader.stream_of_bytes_eq ⟨b, off⟩ h
  have htokens : a.tokens = b.tokens := by
    rw [tokens, tokens, Reader.ofBlob, Reader.ofBlob, hstream, structOffset, structOffset, hword]
  have houtline : b.outline = a.outline := by
    simp only [outline, htokens, hstringAt]
  have hbuild := Build.build_of_outline_eq houtline
  constructor
  case bytes => exact h
  case next => exact fun off => Reader.next_of_bytes_eq ⟨b, off⟩ h
  case stream => exact hstream
  case tokens => exact htokens
  case stringAt => exact hstringAt
  case build => exact hbuild
  case dump =>
    intro heap s t hs ht hsize
    have hmoved : s = t.withBlob heap.imprint a := by
      have hresult := congrArg Build.Outcome.result (hbuild heap)
      rw [hs, Build.Outcome.withBlob, ht] at hresult
      exact Except.ok.inj hresult
    subst hmoved
    exact Build.dump_eq_of_records hs ht rfl rfl hsize

/-- A buffer is taken as a blob by its magic number, its address and its header, in that order, and
as many bytes as the header declares. So bytes behind it change nothing, and it does not matter
whether it is given as a buffer or by its address. -/
theorem ofBuffer_exact (buffer : Buffer) :
    (∀ answer, ofBuffer buffer = answer ↔ buffer.Yields answer) ∧
      (∀ b more, ofBuffer buffer = .ok b →
        ofBuffer ⟨buffer.address, buffer.bytes ++ more⟩ = .ok b ∧
          ∀ address, address % 4 = 0 →
            ofBuffer ⟨address, buffer.bytes ++ more⟩ = .ok (b.movedTo address) ∧
              (b.movedTo address).ReadsAs b) ∧
      (buffer.IsReadable → ofMemory (some buffer) = ofBuffer buffer) := by
  refine ⟨fun _ => ofBuffer_eq_iff, fun b more hb => ⟨?_, fun address haligned => ?_⟩,
    fun h => ofMemory_some h.address_ne⟩
  · cases ofBuffer_eq_iff.1 hb with
    | blob _ haligned _ haddress _ =>
      have hmoved := ofBuffer_append hb more haligned
      rwa [← haddress] at hmoved ⊢
  · exact ⟨ofBuffer_append hb more haligned, readsAs_of_bytes_eq rfl⟩

theorem ofBuffer_exact_sample :
    Buffer.IsReadable ⟨0x1000, Blob.sample.bytes⟩ ∧
      ∃ b, ofMemory (some ⟨0x1000, Blob.sample.bytes⟩) = .ok b ∧
        ofBuffer ⟨0x2008, Blob.sample.bytes ++ [1]⟩ = .ok (b.movedTo 0x2008) ∧
        (b.movedTo 0x2008).ReadsAs b := by
  have hsize : (Buffer.totalSize ⟨0x1000, Blob.sample.bytes⟩).toOption = some 124 := by
    decide +kernel
  have hcheck : (ofBuffer ⟨0x1000, Blob.sample.bytes⟩).toOption.map Blob.address = some 0x1000 := by
    decide +kernel
  have hreadable : Buffer.IsReadable ⟨0x1000, Blob.sample.bytes⟩ := by
    refine ⟨by decide, by decide +kernel, fun size htotal => ?_⟩
    rw [htotal] at hsize
    obtain rfl : size = 124 := Option.some.inj hsize
    decide +kernel
  obtain ⟨-, hcopies, hmemory⟩ := ofBuffer_exact ⟨0x1000, Blob.sample.bytes⟩
  obtain ⟨b, hb, -⟩ := Build.exists_of_result hcheck
  obtain ⟨-, hmoved⟩ := hcopies b [1] hb
  obtain ⟨hcopy, hreads⟩ := hmoved 0x2008 rfl
  exact ⟨hreadable, b, (hmemory hreadable).trans hb, hcopy, hreads⟩

end Blob
end Devicetree
