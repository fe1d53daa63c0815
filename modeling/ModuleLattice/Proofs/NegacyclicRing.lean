import ModuleLattice.Proofs.Splitting
import Mathlib.Algebra.QuadraticAlgebra.Basic
import Mathlib.RingTheory.AdjoinRoot
import Mathlib.Tactic.LinearCombination

/-!
# Products modulo `X ^ 256 + 1` and their remainders

`negacyclic p q` is the schoolbook product of two polynomials of 256 coefficients: terms whose indices add up to 256 or more
come back with the sign changed. It is the product in every ring that has an element `y` with `y ^ 256 = -1` in the place of
`X` (`sum_negacyclic`), in particular modulo `X ^ 256 + 1` itself (`dvd_mul_sub_negacyclic`).

The last layer of the transform leaves remainders of degree one. `sum_eq_remainders` reads them as the polynomial taken at a
square root of the block's root; taken there in a quadratic extension, a product of polynomials becomes the product of two
pairs (`remainder_negacyclic`).
-/

namespace ModuleLattice

open Finset Polynomial

section

variable {R : Type*} [CommRing R]

/-- The schoolbook product of two polynomials of 256 coefficients modulo `X ^ 256 + 1`. -/
def negacyclic (p q : Nat → R) (k : Nat) : R :=
  ∑ i ∈ range 256, ∑ j ∈ range 256,
    if i + j = k then p i * q j else if i + j = k + 256 then -(p i * q j) else 0

/-- One term of a product contributes to one coefficient, in a ring where `y ^ 256 = -1`. -/
theorem sum_term {y : R} (hy : y ^ 256 = -1) (c : R) {i j : Nat} (hi : i < 256) (hj : j < 256) :
    ∑ k ∈ range 256, (if i + j = k then c else if i + j = k + 256 then -c else 0) * y ^ k = c * (y ^ i * y ^ j) := by
  rw [← pow_add]
  by_cases h : i + j < 256
  · rw [sum_eq_single (i + j)]
    · rw [if_pos rfl]
    · intro k _ hk
      rw [if_neg (Ne.symm hk), if_neg (by omega), zero_mul]
    · intro hnot
      exact absurd (mem_range.2 h) hnot
  · have hwrap : i + j = (i + j - 256) + 256 := by omega
    rw [sum_eq_single (i + j - 256)]
    · rw [if_neg (by omega), if_pos hwrap]
      conv_rhs => rw [hwrap, pow_add, hy]
      ring
    · intro k _ hk
      rw [if_neg (by have := mem_range.1 ‹k ∈ range 256›; omega), if_neg (by omega), zero_mul]
    · intro hnot
      exact absurd (mem_range.2 (by omega)) hnot

/-- The schoolbook product is the product of the two polynomials at every `y` with `y ^ 256 = -1`. -/
theorem sum_negacyclic {y : R} (hy : y ^ 256 = -1) (p q : Nat → R) :
    ∑ k ∈ range 256, negacyclic p q k * y ^ k = (∑ i ∈ range 256, p i * y ^ i) * ∑ j ∈ range 256, q j * y ^ j := by
  calc ∑ k ∈ range 256, negacyclic p q k * y ^ k
      = ∑ i ∈ range 256, ∑ j ∈ range 256, ∑ k ∈ range 256,
          (if i + j = k then p i * q j else if i + j = k + 256 then -(p i * q j) else 0) * y ^ k := by
        simp only [negacyclic, sum_mul]
        rw [sum_comm]
        exact sum_congr rfl fun i _ => sum_comm
    _ = ∑ i ∈ range 256, ∑ j ∈ range 256, p i * y ^ i * (q j * y ^ j) := by
        refine sum_congr rfl fun i hi => sum_congr rfl fun j hj => ?_
        rw [sum_term hy _ (mem_range.1 hi) (mem_range.1 hj)]
        ring
    _ = (∑ i ∈ range 256, p i * y ^ i) * ∑ j ∈ range 256, q j * y ^ j := (sum_mul_sum _ _ _ _).symm

/-- A ring homomorphism takes schoolbook products to schoolbook products. -/
theorem map_negacyclic {S : Type*} [CommRing S] (f : R →+* S) (p q : Nat → R) (k : Nat) :
    f (negacyclic p q k) = negacyclic (fun i => f (p i)) (fun j => f (q j)) k := by
  simp only [negacyclic, map_sum]
  refine sum_congr rfl fun i _ => sum_congr rfl fun j _ => ?_
  split_ifs <;> simp

/-- The polynomial of a sequence of 256 coefficients. -/
noncomputable def polynomialOf (p : Nat → R) : R[X] := ∑ i ∈ range 256, C (p i) * X ^ i

/-- The schoolbook product is the product of the polynomials modulo `X ^ 256 + 1`. -/
theorem dvd_mul_sub_negacyclic (p q : Nat → R) :
    (X ^ 256 + 1 : R[X]) ∣ polynomialOf p * polynomialOf q - polynomialOf (negacyclic p q) := by
  have hroot : AdjoinRoot.root (X ^ 256 + 1 : R[X]) ^ 256 = -1 := by
    have h := AdjoinRoot.eval₂_root (X ^ 256 + 1 : R[X])
    simp only [eval₂_add, eval₂_X_pow, eval₂_one] at h
    exact eq_neg_of_add_eq_zero_left h
  have hmk : ∀ p : Nat → R, AdjoinRoot.mk (X ^ 256 + 1 : R[X]) (polynomialOf p) =
      ∑ i ∈ range 256, AdjoinRoot.of (X ^ 256 + 1 : R[X]) (p i) * AdjoinRoot.root (X ^ 256 + 1 : R[X]) ^ i := by
    intro p
    simp [polynomialOf]
  rw [← AdjoinRoot.mk_eq_mk, map_mul, hmk, hmk, hmk, ← sum_negacyclic hroot]
  exact sum_congr rfl fun k _ => by rw [map_negacyclic]

end

/-! ## Remainders of degree one -/

/-- Every root of the last layer is an odd power of 17. -/
theorem blockRoot_pow_half (j : Nat) : blockRoot 7 j ^ 128 = -1 := by
  have hodd : Odd (2 * reverseBits 7 j + 1) := odd_two_mul_add_one _
  rw [blockRoot, Nat.sub_self, pow_zero, mul_one, pow_right_comm, rootOfUnity_pow_half, hodd.neg_one_pow]

/-- At a square root of a block's root, a polynomial takes the value of its remainder. -/
theorem sum_eq_remainders {S : Type*} [CommRing S] (f : ZMod 3329 →+* S) (q : Nat → ZMod 3329) {j : Nat} {y : S}
    (hy : y ^ 2 = f (blockRoot 7 j)) :
    ∑ i ∈ range 256, f (q i) * y ^ i = f (remainder 7 q j 0) + f (remainder 7 q j 1) * y := by
  have hlen : 256 = 2 * 2 ^ 7 := rfl
  rw [hlen, sum_range_even_odd, remainder, remainder, map_sum, map_sum, sum_mul]
  congr 1
  · refine sum_congr rfl ?_
    intro i _
    rw [pow_mul, hy, map_mul, map_pow]
    rfl
  · refine sum_congr rfl ?_
    intro i _
    rw [pow_succ, pow_mul, hy, map_mul, map_pow, mul_assoc]
    rfl

/-- The remainders of a schoolbook product are the products of the remainders modulo `X ^ 2 - z`, `z` the root of the block. -/
theorem remainder_negacyclic (p q : Nat → ZMod 3329) (j : Nat) :
    remainder 7 (negacyclic p q) j 0 =
        remainder 7 p j 0 * remainder 7 q j 0 + remainder 7 p j 1 * (remainder 7 q j 1 * blockRoot 7 j) ∧
      remainder 7 (negacyclic p q) j 1 =
        remainder 7 p j 0 * remainder 7 q j 1 + remainder 7 p j 1 * remainder 7 q j 0 := by
  let f := algebraMap (ZMod 3329) (QuadraticAlgebra (ZMod 3329) (blockRoot 7 j) 0)
  let y : QuadraticAlgebra (ZMod 3329) (blockRoot 7 j) 0 := QuadraticAlgebra.omega
  have hy : y ^ 2 = f (blockRoot 7 j) := by
    rw [pow_two]
    exact QuadraticAlgebra.omega_mul_omega_eq_mk
  have hy256 : y ^ 256 = -1 := by
    rw [show 256 = 2 * 128 from rfl, pow_mul, hy, ← map_pow, blockRoot_pow_half, map_neg, map_one]
  have hprod := sum_negacyclic hy256 (fun i => f (p i)) (fun i => f (q i))
  simp only [← map_negacyclic] at hprod
  rw [sum_eq_remainders f _ hy, sum_eq_remainders f _ hy, sum_eq_remainders f _ hy] at hprod
  have hre := congrArg QuadraticAlgebra.re hprod
  have him := congrArg QuadraticAlgebra.im hprod
  simp only [QuadraticAlgebra.algebraMap_eq, QuadraticAlgebra.re_add, QuadraticAlgebra.re_mul, QuadraticAlgebra.omega_re,
    QuadraticAlgebra.im_add, QuadraticAlgebra.im_mul, QuadraticAlgebra.omega_im, mul_zero, mul_one, add_zero, zero_add, zero_mul,
    f, y] at hre him
  refine ⟨?_, ?_⟩
  · rw [hre]
    ring
  · exact him

/-- The two remainders of a block are the coefficients of the polynomial modulo `X ^ 2 - z`, `z` the root of the block. -/
theorem modByMonic_eq_remainders (q : Nat → ZMod 3329) (j : Nat) :
    polynomialOf q %ₘ (X ^ 2 - C (blockRoot 7 j)) = C (remainder 7 q j 0) + C (remainder 7 q j 1) * X := by
  have hmonic : (X ^ 2 - C (blockRoot 7 j)).Monic := monic_X_pow_sub_C _ two_ne_zero
  have hroot : AdjoinRoot.root (X ^ 2 - C (blockRoot 7 j)) ^ 2 = AdjoinRoot.of (X ^ 2 - C (blockRoot 7 j)) (blockRoot 7 j) := by
    have h := AdjoinRoot.eval₂_root (X ^ 2 - C (blockRoot 7 j))
    simp only [eval₂_sub, eval₂_X_pow, eval₂_C] at h
    exact sub_eq_zero.1 h
  have hdvd : (X ^ 2 - C (blockRoot 7 j)) ∣ polynomialOf q - (C (remainder 7 q j 0) + C (remainder 7 q j 1) * X) := by
    rw [← AdjoinRoot.mk_eq_mk]
    have h := sum_eq_remainders (AdjoinRoot.of (X ^ 2 - C (blockRoot 7 j))) q hroot
    simpa [polynomialOf] using h
  obtain ⟨d, hd⟩ := hdvd
  refine (div_modByMonic_unique d _ hmonic ⟨?_, ?_⟩).2
  · rw [← hd]
    ring
  · have : Nontrivial (ZMod 3329) := ⟨0, 1, by decide⟩
    rw [degree_X_pow_sub_C two_pos, add_comm]
    exact degree_linear_lt

end ModuleLattice
