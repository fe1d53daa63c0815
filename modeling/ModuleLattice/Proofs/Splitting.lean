import ModuleLattice.Proofs.Reduction
import Mathlib.Algebra.BigOperators.Intervals
import Mathlib.Algebra.BigOperators.Ring.Finset
import Mathlib.Tactic.Abel
import Mathlib.Tactic.Ring

/-!
# The tower of factors of `X ^ 256 + 1`

After `l` layers the transform holds a polynomial by its remainders modulo `2 ^ l` factors `X ^ (2 ^ (8 - l)) - blockRoot l b`,
one for each block `b`. Every factor splits into two, because its root is the square of a power of 17, `splitRoot l b`:
the left half of the block keeps the remainder modulo `X ^ (2 ^ (7 - l)) - splitRoot l b`, the right half the one with the
sign changed. The twiddle factor of the block is this square root in Montgomery form.

The exponents are those of a bit-reversed numbering of the blocks; `reverseBits_two_pow_add` is the one place where the
table's order and the order of the blocks meet.
-/

namespace ModuleLattice

/-! ## Reversed digits -/

/-- One step of the reversal: the last digit comes first. -/
theorem reverseBits_succ (width x : Nat) : reverseBits (width + 1) x = x % 2 * 2 ^ width + reverseBits width (x / 2) := rfl

theorem reverseBits_zero (width : Nat) : reverseBits width 0 = 0 := by
  induction width with
  | zero => rfl
  | succ width ih => rw [reverseBits_succ, Nat.zero_mod, Nat.zero_div, ih, Nat.zero_mul]

/-- A leading one of `x` and the zeros above it: read backwards they are `d` zeros, the digit, and the reversed rest. -/
theorem reverseBits_two_pow_add {l b : Nat} (d : Nat) (hb : b < 2 ^ l) :
    reverseBits (l + 1 + d) (2 ^ l + b) = (2 * reverseBits l b + 1) * 2 ^ d := by
  induction l generalizing b with
  | zero =>
    obtain rfl : b = 0 := by simpa using hb
    have hs : 0 + 1 + d = d + 1 := by omega
    rw [hs, reverseBits_succ]
    simp [reverseBits, reverseBits_zero]
  | succ l ih =>
    have hmod : (2 ^ (l + 1) + b) % 2 = b % 2 := by omega
    have hdiv : (2 ^ (l + 1) + b) / 2 = 2 ^ l + b / 2 := by omega
    have hhalf : b / 2 < 2 ^ l := by omega
    have hs : l + 1 + 1 + d = l + 1 + d + 1 := by omega
    rw [hs, reverseBits_succ, hmod, hdiv, ih hhalf, reverseBits_succ, pow_add 2 (l + 1) d]
    ring

/-- Reversing complements: the mirrored block has the mirrored number. -/
theorem reverseBits_mirror {l b c : Nat} (h : b + c + 1 = 2 ^ l) : reverseBits l b + reverseBits l c + 1 = 2 ^ l := by
  induction l generalizing b c with
  | zero => rfl
  | succ l ih =>
    have hdigits : b % 2 + c % 2 = 1 := by omega
    have hrest : b / 2 + c / 2 + 1 = 2 ^ l := by omega
    have hrev := ih hrest
    rw [reverseBits_succ, reverseBits_succ, pow_succ]
    calc b % 2 * 2 ^ l + reverseBits l (b / 2) + (c % 2 * 2 ^ l + reverseBits l (c / 2)) + 1
        = (b % 2 + c % 2) * 2 ^ l + (reverseBits l (b / 2) + reverseBits l (c / 2) + 1) := by ring
      _ = 2 ^ l * 2 := by rw [hdigits, hrev]; ring

/-! ## The roots of the factors -/

/-- The root of the factor that belongs to block `b` after `l` layers. -/
def blockRoot (l b : Nat) : ZMod 3329 := (rootOfUnity : ZMod 3329) ^ ((2 * reverseBits l b + 1) * 2 ^ (7 - l))

/-- The square root by which layer `l` splits the factor of block `b`. -/
def splitRoot (l b : Nat) : ZMod 3329 := (rootOfUnity : ZMod 3329) ^ ((2 * reverseBits l b + 1) * 2 ^ (6 - l))

/-- Half way round, the root of unity is minus one. -/
theorem rootOfUnity_pow_half : (rootOfUnity : ZMod 3329) ^ 128 = -1 := by
  decide +kernel

theorem splitRoot_sq {l : Nat} (b : Nat) (hl : l ≤ 6) : splitRoot l b ^ 2 = blockRoot l b := by
  have hs : 7 - l = 6 - l + 1 := by omega
  rw [splitRoot, blockRoot, ← pow_mul, hs, pow_succ, mul_assoc]

/-- The left half of a block takes the square root for its root. -/
theorem blockRoot_left (l b : Nat) : blockRoot (l + 1) (2 * b) = splitRoot l b := by
  have hmod : 2 * b % 2 = 0 := by omega
  have hdiv : 2 * b / 2 = b := by omega
  have hs : 7 - (l + 1) = 6 - l := by omega
  rw [blockRoot, splitRoot, reverseBits_succ, hmod, hdiv, hs, Nat.zero_mul, Nat.zero_add]

/-- The right half of a block takes the other square root. -/
theorem blockRoot_right {l : Nat} (b : Nat) (hl : l ≤ 6) : blockRoot (l + 1) (2 * b + 1) = -splitRoot l b := by
  have hmod : (2 * b + 1) % 2 = 1 := by omega
  have hdiv : (2 * b + 1) / 2 = b := by omega
  have hs : 7 - (l + 1) = 6 - l := by omega
  have hpow : 2 ^ (l + 1) * 2 ^ (6 - l) = 128 := by
    rw [← pow_add, show l + 1 + (6 - l) = 7 by omega]
    rfl
  have hexp : (2 * (1 * 2 ^ l + reverseBits l b) + 1) * 2 ^ (6 - l) =
      128 + (2 * reverseBits l b + 1) * 2 ^ (6 - l) := by
    rw [← hpow]
    ring
  rw [blockRoot, splitRoot, reverseBits_succ, hmod, hdiv, hs, hexp, pow_add, rootOfUnity_pow_half, neg_one_mul]

/-- The square roots of mirrored blocks are inverse to each other up to the sign. -/
theorem splitRoot_mul_mirror {l b c : Nat} (hl : l ≤ 6) (h : b + c + 1 = 2 ^ l) :
    splitRoot l b * splitRoot l c = -1 := by
  have hrev := reverseBits_mirror h
  have hpow : 2 ^ (l + 1) * 2 ^ (6 - l) = 128 := by
    rw [← pow_add, show l + 1 + (6 - l) = 7 by omega]
    rfl
  have hexp : (2 * reverseBits l b + 1) * 2 ^ (6 - l) + (2 * reverseBits l c + 1) * 2 ^ (6 - l) = 128 := by
    rw [← hpow, pow_succ 2 l, ← hrev]
    ring
  rw [splitRoot, splitRoot, ← pow_add, hexp, rootOfUnity_pow_half]

/-! ## The table of twiddle factors -/

/-- The word of a centred residue: its class is the residue's, and its magnitude at most half the modulus. -/
theorem centredWord_spec {x : Nat} (h : x < 3329) :
    residue (centredWord x) = (x : ZMod 3329) ∧ (centredWord x).toInt.natAbs ≤ 1664 := by
  have hq : (3329 : ZMod 3329) = 0 := ZMod.natCast_self 3329
  unfold centredWord residue
  split
  · have hv : (Int16.ofInt ((x : Int) - 3329)).toInt = (x : Int) - 3329 := by
      rw [Int16.toInt_ofInt]
      exact Word.bmod_of_fits16 (by omega)
    rw [hv]
    refine ⟨?_, by omega⟩
    push_cast
    rw [hq, sub_zero]
  · have hv : (Int16.ofInt (x : Int)).toInt = (x : Int) := by
      rw [Int16.toInt_ofInt]
      exact Word.bmod_of_fits16 (by omega)
    rw [hv]
    exact ⟨Int.cast_natCast x, by omega⟩

/-- Entry `k` of the table is a root in Montgomery form, of small magnitude. -/
theorem twiddles_spec (k : Nat) (hk : k < 128) :
    residue twiddles[k] = (rootOfUnity : ZMod 3329) ^ reverseBits 7 k * 65536 ∧ twiddles[k].toInt.natAbs ≤ 1664 := by
  have hlt : rootOfUnity ^ reverseBits 7 k * 2 ^ 16 % 3329 < 3329 := Nat.mod_lt _ (by decide)
  obtain ⟨hres, hmag⟩ := centredWord_spec hlt
  have hentry : twiddles[k] = centredWord (rootOfUnity ^ reverseBits 7 k * 2 ^ 16 % 3329) := by
    simp [twiddles]
  rw [hentry]
  refine ⟨?_, hmag⟩
  rw [hres, ZMod.natCast_mod]
  push_cast
  rfl

/-- The twiddle factor of a block is the square root of the block's root, in Montgomery form. -/
theorem residue_twiddle {l b : Nat} (hl : l ≤ 6) (hb : b < 2 ^ l) (hk : 2 ^ l + b < 128) :
    residue twiddles[2 ^ l + b] = splitRoot l b * 65536 := by
  have hrev := reverseBits_two_pow_add (6 - l) hb
  rw [show l + 1 + (6 - l) = 7 by omega] at hrev
  rw [(twiddles_spec _ hk).1, hrev, splitRoot]

/-! ## Remainders -/

/-- A sum over an even number of terms, taken apart into the terms of even and of odd index. -/
theorem sum_range_even_odd {M : Type*} [AddCommMonoid M] (f : Nat → M) (n : Nat) :
    ∑ i ∈ Finset.range (2 * n), f i = ∑ i ∈ Finset.range n, f (2 * i) + ∑ i ∈ Finset.range n, f (2 * i + 1) := by
  induction n with
  | zero => simp
  | succ n ih =>
    rw [Nat.mul_succ, Finset.sum_range_succ, Finset.sum_range_succ, ih, Finset.sum_range_succ, Finset.sum_range_succ]
    abel

/-- Coefficient `m` of the remainder of a polynomial modulo the factor of block `b` after `l` layers. -/
def remainder (l : Nat) (q : Nat → ZMod 3329) (b m : Nat) : ZMod 3329 :=
  ∑ i ∈ Finset.range (2 ^ l), q (2 ^ (8 - l) * i + m) * blockRoot l b ^ i

/-- Before the first layer the polynomial is its own remainder. -/
theorem remainder_zero (q : Nat → ZMod 3329) (m : Nat) : remainder 0 q 0 m = q m := by
  simp [remainder]

/-- A remainder is linear in the polynomial. -/
theorem remainder_smul (l : Nat) (c : ZMod 3329) (q : Nat → ZMod 3329) (b m : Nat) :
    remainder l (fun i => c * q i) b m = c * remainder l q b m := by
  simp only [remainder, Finset.mul_sum, mul_assoc]

theorem remainder_add (l : Nat) (p q : Nat → ZMod 3329) (b m : Nat) :
    remainder l (fun i => p i + q i) b m = remainder l p b m + remainder l q b m := by
  simp only [remainder, add_mul, Finset.sum_add_distrib]

/-- The remainder of a sum of polynomials is the sum of the remainders. -/
theorem remainder_sum {ι : Type*} (s : Finset ι) (l : Nat) (q : ι → Nat → ZMod 3329) (b m : Nat) :
    remainder l (fun i => ∑ k ∈ s, q k i) b m = ∑ k ∈ s, remainder l (q k) b m := by
  simp only [remainder, Finset.sum_mul]
  exact Finset.sum_comm

/-- Both halves of a block at once: with `r` for either square root of the block's root, the remainder modulo the smaller
factor is the lower half of the remainder plus `r` times the upper one. -/
theorem sum_split {l : Nat} (hl : l ≤ 6) (q : Nat → ZMod 3329) (m : Nat) {b : Nat} {r : ZMod 3329}
    (hr : r ^ 2 = blockRoot l b) :
    ∑ i ∈ Finset.range (2 ^ (l + 1)), q (2 ^ (8 - (l + 1)) * i + m) * r ^ i =
      remainder l q b m + r * remainder l q b (2 ^ (7 - l) + m) := by
  have hlen : 2 ^ (8 - l) = 2 * 2 ^ (7 - l) := by
    rw [← pow_succ', show 7 - l + 1 = 8 - l by omega]
  rw [pow_succ', sum_range_even_odd, remainder, remainder, Finset.mul_sum]
  have hsub : 8 - (l + 1) = 7 - l := by omega
  congr 1
  · refine Finset.sum_congr rfl ?_
    intro i _
    rw [pow_mul, hr, hsub, hlen, show 2 ^ (7 - l) * (2 * i) + m = 2 * 2 ^ (7 - l) * i + m by ring]
  · refine Finset.sum_congr rfl ?_
    intro i _
    rw [pow_succ, pow_mul, hr, hsub, hlen,
      show 2 ^ (7 - l) * (2 * i + 1) + m = 2 * 2 ^ (7 - l) * i + (2 ^ (7 - l) + m) by ring]
    ring

/-- The remainder modulo the left factor of a block. -/
theorem remainder_left {l : Nat} (hl : l ≤ 6) (q : Nat → ZMod 3329) (b m : Nat) :
    remainder (l + 1) q (2 * b) m = remainder l q b m + splitRoot l b * remainder l q b (2 ^ (7 - l) + m) := by
  rw [remainder, blockRoot_left]
  exact sum_split hl q m (splitRoot_sq b hl)

/-- The remainder modulo the right factor of a block. -/
theorem remainder_right {l : Nat} (hl : l ≤ 6) (q : Nat → ZMod 3329) (b m : Nat) :
    remainder (l + 1) q (2 * b + 1) m = remainder l q b m - splitRoot l b * remainder l q b (2 ^ (7 - l) + m) := by
  rw [remainder, blockRoot_right b hl, sum_split hl q m (b := b) (by rw [neg_sq]; exact splitRoot_sq b hl)]
  ring

end ModuleLattice
