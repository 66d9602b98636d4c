/-!
# Machine words

Offsets, indices and sizes are 64-bit words. A sum or product that a caller can push past the
last word is checked; rounding to an alignment clears the low bits of a word.
-/

namespace Devicetree
namespace Word

/-- The sum of two words, if it is a word. -/
def add? (a b : UInt64) : Option UInt64 :=
  if a.toNat + b.toNat < UInt64.size then some (a + b) else none

def mul? (a b : UInt64) : Option UInt64 :=
  if a.toNat * b.toNat < UInt64.size then some (a * b) else none

/-- The least multiple of `align`, a power of two, that is not below `w`. -/
def alignUp (w align : UInt64) : UInt64 :=
  (w + (align - 1)) &&& ~~~(align - 1)

theorem toNat_of_add? {a b s : UInt64} (h : add? a b = some s) :
    s.toNat = a.toNat + b.toNat := by
  unfold add? at h
  split at h
  · rename_i hlt
    cases h
    rw [UInt64.toNat_add]
    exact Nat.mod_eq_of_lt hlt
  · contradiction

theorem mul?_eq_some_iff {a b p : UInt64} : mul? a b = some p ↔ p.toNat = a.toNat * b.toNat := by
  unfold mul?
  split
  · rename_i hlt
    rw [Option.some.injEq, ← UInt64.toNat_inj, UInt64.toNat_mul, Nat.mod_eq_of_lt hlt]
    exact eq_comm
  · rename_i hge
    have hlt := p.toNat_lt
    simp only [reduceCtorEq, false_iff]
    intro hp
    exact hge (hp ▸ hlt)

/-- Clearing the low bits of a number rounds it down. -/
theorem and_shiftLeft_sub {n k x : Nat} (hk : k ≤ n) (hx : x < 1 <<< n) :
    x &&& (1 <<< n - 1 <<< k) = x >>> k <<< k := by
  have hx : x < 2 ^ n := Nat.lt_of_lt_of_eq hx (Nat.one_shiftLeft n)
  have hpow : 2 ^ k - 1 < 2 ^ n :=
    Nat.lt_of_lt_of_le (Nat.sub_lt (Nat.two_pow_pos k) Nat.one_pos)
      (Nat.pow_le_pow_right (by decide) hk)
  have hmask : 1 <<< n - 1 <<< k = 2 ^ n - (2 ^ k - 1 + 1) := by
    rw [Nat.one_shiftLeft, Nat.one_shiftLeft, Nat.sub_add_cancel (Nat.two_pow_pos k)]
  apply Nat.eq_of_testBit_eq
  intro i
  rw [hmask, Nat.testBit_and, Nat.testBit_two_pow_sub_succ hpow, Nat.testBit_two_pow_sub_one,
    Nat.testBit_shiftLeft, Nat.testBit_shiftRight]
  by_cases hi : i < k
  · simp [hi, Nat.not_le.2 hi]
  · have hle := Nat.le_of_not_lt hi
    simp only [hi, decide_false, Bool.not_false, Bool.and_true, ge_iff_le, hle, decide_true,
      Bool.true_and, Nat.add_sub_cancel' hle]
    by_cases hn : i < n
    · simp [hn]
    · have : x < 2 ^ i :=
        Nat.lt_of_lt_of_le hx (Nat.pow_le_pow_right (by decide) (Nat.le_of_not_lt hn))
      simp [hn, Nat.testBit_lt_two_pow this]

/-- On words the rounding is that of the integers, as long as the result is a word. -/
theorem toNat_alignUp {w align : UInt64} {n : Nat} (halign : align.toNat = n)
    (hn : n.isPowerOfTwo) (h : w.toNat + n ≤ UInt64.size) :
    (alignUp w align).toNat = (w.toNat + (n - 1)) / n * n := by
  obtain ⟨k, hk⟩ := hn
  obtain rfl : n = 2 ^ k := hk
  have hpos := Nat.two_pow_pos k
  have hone : (1 : UInt64).toNat = 1 := rfl
  have hsize : UInt64.size = 2 ^ 64 := rfl
  have hk : k ≤ 64 := by
    have := align.toNat_lt
    rw [halign] at this
    exact Nat.le_of_lt ((Nat.pow_lt_pow_iff_right (by decide)).1 this)
  have hmask : (align - 1).toNat = 2 ^ k - 1 := by
    rw [UInt64.toNat_sub_of_le _ _ (by rw [UInt64.le_iff_toNat_le]; omega), halign, hone]
  have hsum : (w + (align - 1)).toNat = w.toNat + (2 ^ k - 1) := by
    rw [UInt64.toNat_add, hmask]
    omega
  have hnot : (~~~(align - 1)).toNat = 2 ^ 64 - 2 ^ k := by
    rw [UInt64.toNat_not, hmask]
    omega
  have hround : (w.toNat + (2 ^ k - 1)) &&& (1 <<< 64 - 1 <<< k) =
      (w.toNat + (2 ^ k - 1)) >>> k <<< k :=
    and_shiftLeft_sub hk (by omega)
  rw [Nat.one_shiftLeft, Nat.one_shiftLeft, Nat.shiftLeft_eq, Nat.shiftRight_eq_div_pow] at hround
  rw [alignUp, UInt64.toNat_and, hsum, hnot]
  exact hround

end Word
end Devicetree
