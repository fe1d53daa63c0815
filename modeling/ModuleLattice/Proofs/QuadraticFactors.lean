import ModuleLattice.Proofs.Preimage

/-!
# Products in the quadratic factors

Modulo 3329 the polynomial `X ^ 256 + 1` has 128 factors `X ^ 2 - z`, and a transformed polynomial is a pair of coefficients for
each of them. A product in the transformed domain multiplies the pairs modulo their factors and leaves the radix of Montgomery
reduction behind (`NttPoly.mul_spec`). Only the right operand has its odd coefficients multiplied by the roots beforehand, so the
two orders of a product are not the same words; but pairs that are congruent modulo their factor are equal, and so a reduction
brings the two orders together (`products_in_quadratic_factors`).
-/

namespace ModuleLattice

open Polynomial

/-- The factor of `X ^ 256 + 1` that belongs to pair `j`. -/
noncomputable def quadraticFactor (j : Nat) : (ZMod 3329)[X] := X ^ 2 - C (17 ^ (2 * reverseBits 7 j + 1))

namespace NttPoly

/-- Pair `j` of a transformed polynomial, as a polynomial of degree one. -/
noncomputable def pair (x : NttPoly) (j : Nat) : (ZMod 3329)[X] :=
  C (residues x.coeffs (2 * j)) + C (residues x.coeffs (2 * j + 1)) * X

/-- The pair of a product, in Montgomery form, is the product of the pairs modulo their factor. -/
theorem dvd_pair_product {x y r : NttPoly} {j : Nat} (hj : j < 128)
    (hr : ∀ t < 256, residues r.coeffs t * 65536 = ((x.factors y).values t : ZMod 3329)) :
    quadraticFactor j ∣ 2 ^ 16 * r.pair j - x.pair j * y.pair j := by
  obtain ⟨heven, hodd⟩ := cast_values_pair x y hj
  have h0 := congrArg (C : ZMod 3329 → (ZMod 3329)[X]) ((hr (2 * j) (by omega)).trans heven)
  have h1 := congrArg (C : ZMod 3329 → (ZMod 3329)[X]) ((hr (2 * j + 1) (by omega)).trans hodd)
  have hradix : C (65536 : ZMod 3329) = 2 ^ 16 := by
    rw [← C_ofNat, ← C_pow]
    norm_num
  rw [C_add, C_mul, C_mul, C_mul, C_mul, hradix, blockRoot_seven] at h0
  rw [C_add, C_mul, C_mul, C_mul, hradix] at h1
  -- What is left over is the product of the two leading coefficients, times the factor.
  refine ⟨-(C (residues x.coeffs (2 * j + 1)) * C (residues y.coeffs (2 * j + 1))), ?_⟩
  unfold pair quadraticFactor
  linear_combination h0 + X * h1

/-- Pairs that are congruent modulo their factor are the same: the factor has a greater degree. -/
theorem residues_eq_of_dvd {x y : NttPoly} {j : Nat} (h : quadraticFactor j ∣ x.pair j - y.pair j) :
    residues x.coeffs (2 * j) = residues y.coeffs (2 * j) ∧
      residues x.coeffs (2 * j + 1) = residues y.coeffs (2 * j + 1) := by
  have : Nontrivial (ZMod 3329) := ⟨0, 1, by decide⟩
  have hlinear : x.pair j - y.pair j = C (residues x.coeffs (2 * j + 1) - residues y.coeffs (2 * j + 1)) * X +
      C (residues x.coeffs (2 * j) - residues y.coeffs (2 * j)) := by
    rw [pair, pair, C_sub, C_sub]
    ring
  have hdegree : (x.pair j - y.pair j).degree < (quadraticFactor j).degree := by
    rw [hlinear, quadraticFactor, degree_X_pow_sub_C two_pos]
    exact degree_linear_lt
  have hzero : x.pair j - y.pair j = 0 := by
    by_contra hne
    exact (monic_X_pow_sub_C _ two_ne_zero).not_dvd_of_degree_lt hne hdegree h
  rw [hlinear] at hzero
  have heven := congrArg (coeff · 0) hzero
  have hodd := congrArg (coeff · 1) hzero
  simp only [coeff_add, coeff_C_mul, coeff_X_zero, coeff_X_one, coeff_C_zero, coeff_C_succ, coeff_zero, mul_zero, mul_one,
    zero_add, add_zero] at heven hodd
  exact ⟨sub_eq_zero.1 heven, sub_eq_zero.1 hodd⟩

/-- A product of operands in range: every backend computes it, with the cache at hand or not, its coefficients are below three
halves of the modulus, and its pairs are, in Montgomery form, the products of the pairs in the quadratic factors. -/
theorem mul_spec {x y : NttPoly} (hx : AtMost 4095 x.coeffs) (hy : AtMost 26631 y.coeffs) :
    ∃ r : NttPoly, (∀ b : Backend, x.mul b y = .ok r) ∧ (∀ b : Backend, x.mulByCached b y = .ok r) ∧
      AtMost 4992 r.coeffs ∧ ∀ j < 128, quadraticFactor j ∣ 2 ^ 16 * r.pair j - x.pair j * y.pair j := by
  obtain ⟨hsize, hclass⟩ := product_spec hx hy
  refine ⟨⟨Lane.innerProduct [x.factors y]⟩, fun b => mul_eq_lane b hx hy, ?_, hsize,
    fun j hj => dvd_pair_product hj hclass⟩
  intro b
  rw [mulByCached, cached_eq_lane, ok_bind, mulCached_eq_lane b hx hy]

/-- The radix is a unit, so two products that agree in every quadratic factor have the same canonical coefficients. -/
theorem map_canonical_eq_of_dvd {r s : NttPoly} {g : Nat → (ZMod 3329)[X]}
    (hr : ∀ j < 128, quadraticFactor j ∣ 2 ^ 16 * r.pair j - g j)
    (hs : ∀ j < 128, quadraticFactor j ∣ 2 ^ 16 * s.pair j - g j) :
    r.coeffs.map Lane.canonical = s.coeffs.map Lane.canonical := by
  have hunit : (169 * 2 ^ 16 : (ZMod 3329)[X]) = 1 := by
    have h := congrArg (C : ZMod 3329 → (ZMod 3329)[X]) radix_mul_inverse
    rw [C_mul, C_1, mul_comm] at h
    rw [← h, C_ofNat, C_ofNat]
    norm_num
  refine map_canonical_eq_iff.2 fun t ht => ?_
  have hpair : quadraticFactor (t / 2) ∣ r.pair (t / 2) - s.pair (t / 2) := by
    have h := (dvd_sub (hr (t / 2) (by omega)) (hs (t / 2) (by omega))).mul_left 169
    have hsub : 169 * (2 ^ 16 * r.pair (t / 2) - g (t / 2) - (2 ^ 16 * s.pair (t / 2) - g (t / 2))) =
        r.pair (t / 2) - s.pair (t / 2) := by
      linear_combination (r.pair (t / 2) - s.pair (t / 2)) * hunit
    rwa [hsub] at h
  obtain ⟨heven, hodd⟩ := residues_eq_of_dvd hpair
  have hplace : t = 2 * (t / 2) ∨ t = 2 * (t / 2) + 1 := by omega
  rcases hplace with h | h
  · rw [h]
    exact heven
  · rw [h]
    exact hodd

end NttPoly

/-- A product in the transformed domain is a product in each quadratic factor. Of transformed polynomials in the ranges the
operands may have, every backend computes the same product, with the multiplication cache at hand or not; its coefficients are
at most 4992, and pair by pair `2 ^ 16` times the product is the product of the pairs modulo `X ^ 2 - z`. So a product of operands
that both have the range of a left one does not depend on their order once it is reduced. -/
theorem products_in_quadratic_factors :
    (∀ x y : NttPoly, (∀ t : Fin 256, (x.coeffs.get t).toInt.natAbs < 4096) →
      (∀ t : Fin 256, (y.coeffs.get t).toInt.natAbs < 26632) →
      ∃ r : NttPoly, (∀ b : Backend, x.mul b y = .ok r) ∧ (∀ b : Backend, x.mulByCached b y = .ok r) ∧
        (∀ t : Fin 256, (r.coeffs.get t).toInt.natAbs ≤ 4992) ∧
        ∀ j : Fin 128, quadraticFactor j ∣ 2 ^ 16 * r.pair j - x.pair j * y.pair j) ∧
    ∀ x y : NttPoly, (∀ t : Fin 256, (x.coeffs.get t).toInt.natAbs < 4096) →
      (∀ t : Fin 256, (y.coeffs.get t).toInt.natAbs < 4096) →
      ∃ z : NttPoly, (∀ b : Backend, (do (← x.mul b y).reduce b) = Except.ok z) ∧
        ∀ b : Backend, (do (← y.mul b x).reduce b) = Except.ok z := by
  constructor
  · intro x y hx hy
    obtain ⟨r, hok, hcached, hsize, hdvd⟩ := NttPoly.mul_spec (atMost_iff.2 hx) (atMost_iff.2 hy)
    exact ⟨r, hok, hcached, fun t => Nat.le_of_lt_succ (atMost_iff.1 hsize t), fun j => hdvd j j.isLt⟩
  · intro x y hx hy
    have hx := atMost_iff.2 hx
    have hy := atMost_iff.2 hy
    obtain ⟨r, hr, -, -, hrdvd⟩ := NttPoly.mul_spec hx (hy.mono (by decide))
    obtain ⟨s, hs, -, -, hsdvd⟩ := NttPoly.mul_spec hy (hx.mono (by decide))
    have hcomm : ∀ j < 128, quadraticFactor j ∣ 2 ^ 16 * s.pair j - x.pair j * y.pair j := by
      intro j hj
      rw [mul_comm (x.pair j)]
      exact hsdvd j hj
    refine ⟨⟨r.coeffs.map Lane.canonical⟩, ?_, ?_⟩
    · intro b
      rw [hr, ok_bind, NttPoly.reduce_eq_lane]
    · intro b
      rw [hs, ok_bind, NttPoly.reduce_eq_lane, NttPoly.map_canonical_eq_of_dvd hrdvd hcomm]

/-- Products of the largest operands, and of operands of mixed signs in both orders. -/
theorem largest_products_in_factors :
    (∀ t : Fin 256, ((NttVec.largestLeft.polys.get 0).coeffs.get t).toInt.natAbs < 4096) ∧
      (∀ t : Fin 256, ((NttVec.largestRight.polys.get 0).coeffs.get t).toInt.natAbs < 26632) ∧
      (∀ t : Fin 256, (Poly.extreme.coeffs.get t).toInt.natAbs < 4096) ∧
      (∃ r : NttPoly, (∀ b : Backend, (NttVec.largestLeft.polys.get 0).mul b (NttVec.largestRight.polys.get 0) = .ok r) ∧
        (∀ t : Fin 256, (r.coeffs.get t).toInt.natAbs ≤ 4992) ∧
        quadraticFactor 127 ∣ 2 ^ 16 * r.pair 127 -
          (NttVec.largestLeft.polys.get 0).pair 127 * (NttVec.largestRight.polys.get 0).pair 127) ∧
      ∃ z : NttPoly,
        (∀ b : Backend, (do (← (NttVec.largestLeft.polys.get 0).mul b ⟨Poly.extreme.coeffs⟩).reduce b) = Except.ok z) ∧
        ∀ b : Backend, (do (← NttPoly.mul b ⟨Poly.extreme.coeffs⟩ (NttVec.largestLeft.polys.get 0)).reduce b) =
          Except.ok z := by
  have hleft : ∀ t : Fin 256, ((NttVec.largestLeft.polys.get 0).coeffs.get t).toInt.natAbs < 4096 :=
    fun t => (NttVec.natAbs_largestLeft 0 t).trans_lt (by decide)
  have hright : ∀ t : Fin 256, ((NttVec.largestRight.polys.get 0).coeffs.get t).toInt.natAbs < 26632 :=
    fun t => (NttVec.natAbs_largestRight 0 t).trans_lt (by decide)
  have hsigned : ∀ t : Fin 256, (Poly.extreme.coeffs.get t).toInt.natAbs < 4096 :=
    fun t => (Poly.extreme_accepted t).trans (by decide)
  obtain ⟨r, hok, -, hsize, hdvd⟩ := products_in_quadratic_factors.1 _ _ hleft hright
  exact ⟨hleft, hright, hsigned, ⟨r, hok, hsize, hdvd 127⟩,
    products_in_quadratic_factors.2 _ ⟨Poly.extreme.coeffs⟩ hleft hsigned⟩

end ModuleLattice
