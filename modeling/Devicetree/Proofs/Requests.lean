import Devicetree.Cursor
import Mathlib.Algebra.Group.Nat.Defs
import Mathlib.Data.List.Forall2
import Mathlib.Order.Bounds.Defs

/-!
# Requests

A cursor serves requests of any sizes and alignments one after another. It works on words, but as
long as the exact sums are words it does what one would do with numbers: each request starts at the
least multiple of its alignment behind what was reserved before. So reservations never overlap, and
no other way to place the same requests in order starts any of them, or ends, at a lower offset.
-/

namespace Devicetree

/-- The least multiple of `n` that is not below `m`. -/
def roundUp (m n : Nat) : Nat := (m + (n - 1)) / n * n

theorem isLeast_roundUp {n : Nat} (hn : 0 < n) (m : Nat) :
    IsLeast {k | n ∣ k ∧ m ≤ k} (roundUp m n) := by
  have hdiv := Nat.div_add_mod (m + (n - 1)) n
  have hmod := Nat.mod_lt (m + (n - 1)) hn
  rw [Nat.mul_comm] at hdiv
  constructor
  · refine ⟨Nat.dvd_mul_left _ _, ?_⟩
    unfold roundUp
    omega
  · rintro k ⟨⟨q, rfl⟩, hle⟩
    rw [roundUp, Nat.mul_comm n q]
    apply Nat.mul_le_mul_right
    rw [← Nat.lt_succ_iff, Nat.div_lt_iff_lt_mul hn, Nat.succ_mul, Nat.mul_comm q n]
    omega

theorem Word.toNat_alignUp_eq_roundUp {w align : UInt64} (halign : align.toNat.isPowerOfTwo)
    (h : roundUp w.toNat align.toNat < 2 ^ 64) :
    (Word.alignUp w align).toNat = roundUp w.toNat align.toNat := by
  obtain ⟨k, hk⟩ := halign
  have hpos : 0 < align.toNat := hk ▸ Nat.two_pow_pos k
  have hk64 : k ≤ 64 := by
    have hlt := align.toNat_lt
    rw [hk] at hlt
    exact Nat.le_of_lt ((Nat.pow_lt_pow_iff_right (by decide)).1 hlt)
  obtain ⟨⟨q, hq⟩, hle⟩ := (isLeast_roundUp hpos w.toNat).1
  -- the words end at a multiple of the alignment, so there is room behind any lower one
  obtain ⟨r, hr⟩ : align.toNat ∣ 2 ^ 64 := hk ▸ Nat.pow_dvd_pow 2 hk64
  have hqr : q < r := by
    rw [hq, hr] at h
    exact Nat.lt_of_mul_lt_mul_left h
  have hroom : align.toNat * q + align.toNat ≤ 2 ^ 64 := by
    rw [hr, ← Nat.mul_succ]
    exact Nat.mul_le_mul_left _ hqr
  apply Word.toNat_alignUp rfl ⟨k, hk⟩
  have hsize : UInt64.size = 2 ^ 64 := rfl
  omega

structure Request where
  size : UInt64
  align : UInt64
  isPowerOfTwo : align.toNat.isPowerOfTwo

/-- The offset behind the requests when they are placed with numbers from `n` on. No sum on the way
is larger, as every one is rounded up or added to later. -/
def Request.stop (n : Nat) : List Request → Nat
  | [] => n
  | r :: rest => stop (roundUp n r.align.toNat + r.size.toNat) rest

structure Reservation where
  request : Request
  before : Cursor
  start : UInt64
  after : Cursor

namespace Reservation

def stop (v : Reservation) : Nat := v.start.toNat + v.request.size.toNat

def Covers (v : Reservation) (i : Nat) : Prop := v.start.toNat ≤ i ∧ i < v.stop

/-- The reservation wastes as little as its alignment allows. -/
structure IsTight (v : Reservation) : Prop where
  start : IsLeast {m | v.request.align.toNat ∣ m ∧ v.before.offset.toNat ≤ m} v.start.toNat
  after : v.after.offset.toNat = v.stop

end Reservation

/-- The requests are placed at the given offsets: in order, each at a multiple of its alignment,
with no overlap, and between `n` and `stop`. -/
inductive Request.Places : Nat → List Request → List Nat → Nat → Prop
  | nil {n stop : Nat} : n ≤ stop → Places n [] [] stop
  | cons {n start stop : Nat} {r : Request} {rest : List Request} {starts : List Nat} :
      r.align.toNat ∣ start → n ≤ start → Places (start + r.size.toNat) rest starts stop →
      Places n (r :: rest) (start :: starts) stop

namespace Cursor

def serve (c : Cursor) : List Request → List Reservation
  | [] => []
  | r :: rest =>
    let (start, after) := c.reserve r.size r.align
    ⟨r, c, start, after⟩ :: after.serve rest

def behind (c : Cursor) (requests : List Request) : Cursor :=
  requests.foldl (fun c r => (c.reserve r.size r.align).2) c

end Cursor

open Request

variable {n : Nat} {r : Request} {requests : List Request} {c : Cursor} {v : Reservation}

theorem Request.align_pos (r : Request) : 0 < r.align.toNat := by
  obtain ⟨k, hk⟩ := r.isPowerOfTwo
  exact hk ▸ Nat.two_pow_pos k

theorem Request.le_roundUp (r : Request) (n : Nat) : n ≤ roundUp n r.align.toNat :=
  (isLeast_roundUp r.align_pos n).1.2

theorem Request.le_stop (n : Nat) (requests : List Request) : n ≤ stop n requests := by
  induction requests generalizing n with
  | nil => exact Nat.le_refl n
  | cons r rest ih =>
    have hround := r.le_roundUp n
    have htail := ih (roundUp n r.align.toNat + r.size.toNat)
    rw [stop]
    omega

namespace Cursor

theorem serve_cons (c : Cursor) (r : Request) (rest : List Request) :
    c.serve (r :: rest) = ⟨r, c, (c.reserve r.size r.align).1, (c.reserve r.size r.align).2⟩ ::
      (c.reserve r.size r.align).2.serve rest := rfl

theorem toNat_reserve (h : roundUp c.offset.toNat r.align.toNat + r.size.toNat < 2 ^ 64) :
    (c.reserve r.size r.align).1.toNat = roundUp c.offset.toNat r.align.toNat ∧
      (c.reserve r.size r.align).2.offset.toNat =
        roundUp c.offset.toNat r.align.toNat + r.size.toNat := by
  have hstart : (Word.alignUp c.offset r.align).toNat = roundUp c.offset.toNat r.align.toNat :=
    Word.toNat_alignUp_eq_roundUp r.isPowerOfTwo (by omega)
  refine ⟨hstart, ?_⟩
  have hsum : (Word.alignUp c.offset r.align + r.size).toNat =
      (Word.alignUp c.offset r.align).toNat + r.size.toNat := by
    rw [UInt64.toNat_add]
    omega
  exact hsum.trans (by rw [hstart])

theorem toNat_reserve_of_stop (h : stop c.offset.toNat (r :: requests) < 2 ^ 64) :
    (c.reserve r.size r.align).1.toNat = roundUp c.offset.toNat r.align.toNat ∧
      (c.reserve r.size r.align).2.offset.toNat =
        roundUp c.offset.toNat r.align.toNat + r.size.toNat ∧
      stop (c.reserve r.size r.align).2.offset.toNat requests < 2 ^ 64 := by
  rw [stop] at h
  have hle := le_stop (roundUp c.offset.toNat r.align.toNat + r.size.toNat) requests
  obtain ⟨hstart, hafter⟩ := toNat_reserve (c := c) (r := r) (by omega)
  exact ⟨hstart, hafter, hafter ▸ h⟩

theorem request_serve (c : Cursor) (requests : List Request) :
    (c.serve requests).map Reservation.request = requests := by
  induction requests generalizing c with
  | nil => rfl
  | cons r rest ih => rw [serve_cons, List.map_cons, ih]

theorem offset_behind (h : stop c.offset.toNat requests < 2 ^ 64) :
    (c.behind requests).offset.toNat = stop c.offset.toNat requests := by
  induction requests generalizing c with
  | nil => rfl
  | cons r rest ih =>
    obtain ⟨-, hafter, hrest⟩ := toNat_reserve_of_stop h
    rw [stop, ← hafter]
    exact ih hrest

/-- Everything that is reserved is tight, and lies behind the cursor as it was and before the cursor
as it is. -/
theorem serve_tight (h : stop c.offset.toNat requests < 2 ^ 64) (hv : v ∈ c.serve requests) :
    v.IsTight ∧ c.offset.toNat ≤ v.start.toNat ∧ v.stop ≤ stop c.offset.toNat requests := by
  induction requests generalizing c with
  | nil => contradiction
  | cons r rest ih =>
    obtain ⟨hstart, hafter, hrest⟩ := toNat_reserve_of_stop h
    have hround := r.le_roundUp c.offset.toNat
    rw [stop, ← hafter]
    rw [serve_cons] at hv
    rcases List.mem_cons.1 hv with rfl | hv
    · have hstop : (c.reserve r.size r.align).2.offset.toNat =
          (c.reserve r.size r.align).1.toNat + r.size.toNat := by
        rw [hafter, hstart]
      refine ⟨⟨?_, hstop⟩, ?_, ?_⟩
      · rw [hstart]
        exact isLeast_roundUp r.align_pos _
      · rw [hstart]
        exact hround
      · exact Nat.le_trans (Nat.le_of_eq hstop.symm) (le_stop _ _)
    · obtain ⟨htight, hle, hstop⟩ := ih hrest hv
      exact ⟨htight, by omega, hstop⟩

theorem pairwise_serve (h : stop c.offset.toNat requests < 2 ^ 64) :
    (c.serve requests).Pairwise fun v w => v.stop ≤ w.start.toNat := by
  induction requests generalizing c with
  | nil => exact .nil
  | cons r rest ih =>
    obtain ⟨hstart, hafter, hrest⟩ := toNat_reserve_of_stop h
    refine .cons (fun w hw => ?_) (ih hrest)
    obtain ⟨-, hle, -⟩ := serve_tight hrest hw
    rw [hafter, ← hstart] at hle
    exact hle

theorem places_serve (h : stop c.offset.toNat requests < 2 ^ 64) :
    Places c.offset.toNat requests ((c.serve requests).map fun v => v.start.toNat)
      (c.behind requests).offset.toNat := by
  induction requests generalizing c with
  | nil => exact .nil (Nat.le_refl _)
  | cons r rest ih =>
    obtain ⟨hstart, hafter, hrest⟩ := toNat_reserve_of_stop h
    obtain ⟨⟨hdvd, hle⟩, -⟩ := isLeast_roundUp r.align_pos c.offset.toNat
    rw [serve_cons, List.map_cons]
    refine .cons (hstart ▸ hdvd) (hstart ▸ hle) ?_
    have hplaces := ih hrest
    rw [hafter, ← hstart] at hplaces
    exact hplaces

/-- However else the requests are placed, each starts no lower, and they end no lower. -/
theorem serve_le_of_places {starts : List Nat} {stop' : Nat}
    (h : stop c.offset.toNat requests < 2 ^ 64) (hn : c.offset.toNat ≤ n)
    (hplaces : Places n requests starts stop') :
    List.Forall₂ (fun v start => v.start.toNat ≤ start) (c.serve requests) starts ∧
      (c.behind requests).offset.toNat ≤ stop' := by
  induction hplaces generalizing c with
  | nil hle => exact ⟨.nil, Nat.le_trans hn hle⟩
  | @cons n start _ r rest starts hdvd hle _ ih =>
    obtain ⟨hstart, hafter, hrest⟩ := toNat_reserve_of_stop h
    have hleast : roundUp c.offset.toNat r.align.toNat ≤ start :=
      (isLeast_roundUp r.align_pos _).2 ⟨hdvd, Nat.le_trans hn hle⟩
    obtain ⟨hstarts, hstop⟩ := ih hrest (by omega)
    rw [serve_cons]
    exact ⟨.cons (hstart ▸ hleast) hstarts, hstop⟩

/-- As long as the exact sums are words, a new cursor serves any requests tightly, one behind the
other and below where it then stands. No two reservations share a byte, no placement of the requests
in this order beats the cursor's, and the bit mask that it rounds with rounds like a number. -/
theorem serves_tightly (requests : List Request) (h : stop 0 requests < 2 ^ 64) :
    (start.serve requests).map Reservation.request = requests ∧
      (∀ v ∈ start.serve requests,
        v.IsTight ∧ v.stop ≤ (start.behind requests).offset.toNat) ∧
      (start.serve requests).Pairwise
        (fun v w => v.stop ≤ w.start.toNat ∧ ∀ i, v.Covers i → ¬ w.Covers i) ∧
      Places 0 requests ((start.serve requests).map fun v => v.start.toNat)
        (start.behind requests).offset.toNat ∧
      (∀ starts stop', Places 0 requests starts stop' →
        List.Forall₂ (fun v s => v.start.toNat ≤ s) (start.serve requests) starts ∧
          (start.behind requests).offset.toNat ≤ stop') ∧
      ∀ w align : UInt64, align.toNat.isPowerOfTwo → roundUp w.toNat align.toNat < 2 ^ 64 →
        (Word.alignUp w align).toNat = roundUp w.toNat align.toNat := by
  refine ⟨request_serve _ _, ?_, ?_, places_serve (c := .start) h, ?_, ?_⟩
  · intro v hv
    obtain ⟨htight, -, hstop⟩ := serve_tight (c := .start) h hv
    exact ⟨htight, Nat.le_trans hstop (Nat.le_of_eq (offset_behind (c := .start) h).symm)⟩
  · refine (pairwise_serve (c := .start) h).imp fun hle => ⟨hle, fun i hv hw => ?_⟩
    exact Nat.lt_irrefl i (Nat.lt_of_lt_of_le hv.2 (Nat.le_trans hle hw.1))
  · exact fun starts stop' => serve_le_of_places (c := .start) h (Nat.le_refl 0)
  · exact fun w align => Word.toNat_alignUp_eq_roundUp

/-- Requests of mixed sizes and alignments, one of them for nothing. -/
def sampleRequests : List Request :=
  [⟨5, 8, 3, rfl⟩, ⟨4, 8, 3, rfl⟩, ⟨1, 4, 2, rfl⟩, ⟨0, 1, 0, rfl⟩, ⟨3, 0x10000, 16, rfl⟩]

theorem serves_tightly_sample :
    stop 0 sampleRequests < 2 ^ 64 ∧
      (start.serve sampleRequests).map (fun v => (v.start, v.after.offset)) =
        [(0, 5), (8, 12), (12, 13), (13, 13), (0x10000, 0x10003)] ∧
      (∀ v ∈ start.serve sampleRequests, v.IsTight ∧ v.stop ≤ 0x10003) ∧
      (start.serve sampleRequests).Pairwise fun v w =>
        v.stop ≤ w.start.toNat ∧ ∀ i, v.Covers i → ¬ w.Covers i := by
  have hstop : stop 0 sampleRequests < 2 ^ 64 := by decide
  obtain ⟨-, htight, hpairwise, -⟩ := serves_tightly sampleRequests hstop
  have hend : (start.behind sampleRequests).offset.toNat = 0x10003 := by decide +kernel
  rw [hend] at htight
  exact ⟨hstop, by decide +kernel, htight, hpairwise⟩

end Cursor
end Devicetree
