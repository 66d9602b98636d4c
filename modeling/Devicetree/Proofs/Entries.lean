import Devicetree.Value
import Mathlib.Logic.Basic

/-!
# Entries

A value that lists texts is cut at its NULs. Nothing is lost by that: the entries, and whether a NUL
closes the last one, tell the value. A value is read from the front, so what holds of it is shown
entry by entry: it is empty, or it is one entry that no NUL closes, or an entry closed by a NUL
stands before another value.
-/

namespace Devicetree
namespace Value

variable {v e rest : Bytes} {es : List Bytes}

theorem entries_append (h : 0 ∉ e) (rest : Bytes) :
    entries (e ++ 0 :: rest) = e :: entries rest := by
  induction e with
  | nil => rw [List.nil_append, entries, if_pos rfl]
  | cons b e ih =>
    rw [List.mem_cons, not_or] at h
    rw [List.cons_append, entries, if_neg (Ne.symm h.1), ih h.2]

theorem entries_of_notMem (hne : v ≠ []) (h : 0 ∉ v) : entries v = [v] := by
  induction v with
  | nil => contradiction
  | cons b v ih =>
    rw [List.mem_cons, not_or] at h
    rw [entries, if_neg (Ne.symm h.1)]
    by_cases hnil : v = []
    · rw [hnil, entries]
    · rw [ih hnil h.2]

theorem entries_induction {motive : Bytes → Prop} (nil : motive [])
    (last : ∀ e, e ≠ [] → 0 ∉ e → motive e)
    (cons : ∀ e rest, 0 ∉ e → motive rest → motive (e ++ 0 :: rest)) (v : Bytes) : motive v := by
  induction hn : v.length using Nat.strongRecOn generalizing v with
  | _ n ih =>
    by_cases hmem : 0 ∈ v
    · obtain ⟨e, rest, rfl, he⟩ := List.eq_append_cons_of_mem hmem
      have hlt : rest.length < n := by
        rw [← hn, List.length_append, List.length_cons]
        omega
      exact cons e rest he (ih _ hlt rest rfl)
    · by_cases hnil : v = []
      · exact hnil ▸ nil
      · exact last v hnil hmem

theorem firstEntry_of_notMem (h : 0 ∉ v) : firstEntry v = v := Bytes.takeWhile_ne_of_notMem h

theorem firstEntry_append (h : 0 ∉ e) (rest : Bytes) : firstEntry (e ++ 0 :: rest) = e :=
  Bytes.takeWhile_ne_append h rest

theorem entries_eq_cons (hne : v ≠ []) :
    entries v = firstEntry v :: entries (v.drop ((firstEntry v).length + 1)) := by
  induction v using entries_induction with
  | nil => contradiction
  | last e hne he =>
    rw [firstEntry_of_notMem he, entries_of_notMem hne he, List.drop_eq_nil_of_le (by omega),
      entries]
  | cons e rest he _ =>
    rw [firstEntry_append he, entries_append he, List.drop_length_add_append, List.drop_one,
      List.tail_cons]

theorem entries_ne_nil (hne : v ≠ []) : entries v ≠ [] := by
  rw [entries_eq_cons hne]
  exact List.cons_ne_nil _ _

theorem entries_flatMap_append (h : ∀ e ∈ es, 0 ∉ e) (rest : Bytes) :
    entries (es.flatMap (· ++ [0]) ++ rest) = es ++ entries rest := by
  induction es with
  | nil => rfl
  | cons e es ih =>
    obtain ⟨he, hes⟩ := List.forall_mem_cons.1 h
    have hsplit : (e :: es).flatMap (· ++ [0]) ++ rest =
        e ++ 0 :: (es.flatMap (· ++ [0]) ++ rest) := by simp
    rw [hsplit, entries_append he, ih hes, List.cons_append]

/-- With NULs between them, all entries but the last are closed. -/
theorem intercalate_concat (es : List Bytes) (e : Bytes) :
    [0].intercalate (es ++ [e]) = es.flatMap (· ++ [0]) ++ e := by
  induction es with
  | nil => simp
  | cons first es ih =>
    rw [List.cons_append, List.intercalate_cons_of_ne_nil (by simp), ih]
    simp

/-- No NUL closes the last entry. -/
def IsOpen (v : Bytes) : Prop := v ≠ [] ∧ v.getLast? ≠ some 0

instance : DecidablePred IsOpen := fun _ => inferInstanceAs (Decidable (_ ∧ _))

theorem getLast?_append (e : Bytes) (hne : rest ≠ []) :
    (e ++ 0 :: rest).getLast? = rest.getLast? := by
  obtain ⟨b, hb⟩ := Option.isSome_iff_exists.1 (List.getLast?_isSome.2 hne)
  rw [List.getLast?_append, List.getLast?_cons_of_ne_nil hne, hb, Option.some_or]

theorem isOpen_append (e rest : Bytes) : IsOpen (e ++ 0 :: rest) ↔ IsOpen rest := by
  unfold IsOpen
  by_cases hne : rest = []
  · simp [hne]
  · simp [hne, getLast?_append e hne]

theorem notMem_of_mem_entries (h : e ∈ entries v) : 0 ∉ e := by
  induction v using entries_induction with
  | nil => contradiction
  | last e' hne he' =>
    rw [entries_of_notMem hne he', List.mem_singleton] at h
    exact h ▸ he'
  | cons e' rest he' ih =>
    rw [entries_append he', List.mem_cons] at h
    rcases h with rfl | h
    · exact he'
    · exact ih h

/-- Each NUL closes an entry, and at most one entry is open. -/
theorem length_entries (v : Bytes) :
    (entries v).length = v.count 0 + if IsOpen v then 1 else 0 := by
  induction v using entries_induction with
  | nil => rfl
  | last e hne he =>
    have hopen : IsOpen e := ⟨hne, fun h => he (List.mem_of_getLast? h)⟩
    rw [entries_of_notMem hne he, List.count_eq_zero.2 he, if_pos hopen]
    rfl
  | cons e rest he ih =>
    rw [entries_append he, List.length_cons, ih, List.count_append, List.count_eq_zero.2 he,
      List.count_cons_self, if_congr (isOpen_append e rest) rfl rfl]
    omega

theorem intercalate_entries (v : Bytes) :
    [0].intercalate (entries v) ++ (if v.getLast? = some 0 then [0] else []) = v := by
  induction v using entries_induction with
  | nil => rfl
  | last e hne he =>
    rw [entries_of_notMem hne he, if_neg fun h => he (List.mem_of_getLast? h)]
    simp
  | cons e rest he ih =>
    rw [entries_append he]
    by_cases hne : rest = []
    · simp [hne, entries]
    · rw [List.intercalate_cons_of_ne_nil (entries_ne_nil hne), getLast?_append e hne,
        List.append_assoc, ih]
      simp

/-- The byte strings make up the value: they hold no NUL, each NUL of the value closes one of them
and at most the last is open, and with NULs between them, and one more behind them if the value ends
in a NUL, they are the value. -/
structure CutInto (v : Bytes) (es : List Bytes) : Prop where
  nul_notMem : ∀ e ∈ es, 0 ∉ e
  length_eq : es.length = v.count 0 + if IsOpen v then 1 else 0
  intercalate_eq : [0].intercalate es ++ (if v.getLast? = some 0 then [0] else []) = v

/-- A value is cut in one way. -/
theorem CutInto.eq_entries (h : CutInto v es) : es = entries v := by
  obtain ⟨hnul, hlength, hjoin⟩ := h
  have hlength' := length_entries v
  rcases List.eq_nil_or_concat es with rfl | ⟨init, last, rfl⟩
  · rw [← hlength] at hlength'
    exact (List.length_eq_zero_iff.1 hlength').symm
  · rw [List.concat_eq_append] at *
    have hinit : ∀ e ∈ init, 0 ∉ e := fun e he => hnul e (List.mem_append_left _ he)
    have hlast : 0 ∉ last := hnul last (by simp)
    have hv : entries v = init ++ entries (last ++ if v.getLast? = some 0 then [0] else []) := by
      rw [← entries_flatMap_append hinit, ← List.append_assoc, ← intercalate_concat, hjoin]
    rw [hv]
    split
    · rw [entries_append hlast, entries]
    · rename_i hend
      rw [List.append_nil]
      have hne : last ≠ [] := by
        rintro rfl
        rw [hv, if_neg hend, ← hlength] at hlength'
        simp [entries] at hlength'
      rw [entries_of_notMem hne hlast]

/-- A value is cut into its entries and into nothing else, and byte strings without NULs are the
entries of the value that closes each of them with one. -/
theorem entries_lossless (v : Bytes) :
    (CutInto v (entries v) ∧ ∀ es, CutInto v es → es = entries v) ∧
      ∀ es, (∀ e ∈ es, 0 ∉ e) → entries (es.flatMap (· ++ [0])) = es := by
  refine ⟨⟨⟨fun e => notMem_of_mem_entries, length_entries v, intercalate_entries v⟩,
    fun es h => h.eq_entries⟩, fun es h => ?_⟩
  have hread := entries_flatMap_append h []
  rwa [List.append_nil, entries, List.append_nil] at hread

theorem entries_lossless_sample :
    entries [0, 0x61, 0, 0, 0x62] = [[], [0x61], [], [0x62]] ∧
      CutInto [0, 0x61, 0, 0, 0x62] [[], [0x61], [], [0x62]] ∧
      entries [0, 0x61, 0, 0] = [[], [0x61], []] := by
  obtain ⟨⟨hcut, honly⟩, hback⟩ := entries_lossless [0, 0x61, 0, 0, 0x62]
  have hentries : [[], [0x61], [], [0x62]] = entries [0, 0x61, 0, 0, 0x62] :=
    honly _ ⟨by decide, by decide, by decide⟩
  exact ⟨hentries.symm, hentries ▸ hcut, hback [[], [0x61], []] (by decide)⟩

end Value
end Devicetree
