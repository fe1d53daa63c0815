import ModuleLattice.Proofs.Preimage

/-!
# The key equation in the transformed domain

A public key is a sum of products plus a small error, and it is computed without leaving the transformed domain: an inner
product, which leaves a factor of `2 ^ 16` below, a pass into Montgomery form, which puts it back, and the sum with a transform
that is not reduced first. `keyEquation_eq_transform` says that the factors cancel and that nothing overflows on the way, not
even the last sum: what is in Montgomery form is below the modulus, and a transform below `2 ^ 14`.
-/

namespace ModuleLattice

open Finset

/-! ## Polynomials by their canonical coefficients -/

/-- The polynomial whose coefficients are the canonical residues of given integers. -/
def Poly.ofIntegers (g : Nat → Int) : Poly := ⟨Vector.ofFn fun t => Int16.ofInt (g t % 3329)⟩

theorem Poly.toInt_ofIntegers (g : Nat → Int) (t : Fin 256) : ((Poly.ofIntegers g).coeffs.get t).toInt = g t % 3329 := by
  rw [Poly.ofIntegers, get_ofFn, Int16.toInt_ofInt]
  exact Word.bmod_of_fits16 (by omega)

theorem Poly.canonical_ofIntegers (g : Nat → Int) : (Poly.ofIntegers g).coeffs.Canonical := by
  intro t
  rw [Poly.toInt_ofIntegers]
  omega

theorem Poly.residues_ofIntegers (g : Nat → Int) {t : Nat} (ht : t < 256) :
    residues (Poly.ofIntegers g).coeffs t = (g t : ZMod 3329) := by
  have hv := Poly.toInt_ofIntegers g ⟨t, ht⟩
  rw [← entry_eq_get] at hv
  rw [residues, residue, hv]
  exact ZMod.intCast_mod (g t) 3329

/-! ## The key equation -/

variable {k : Nat}

/-- The key equation: an inner product with a secret vector and an error, with a canonical result. -/
def keyEquation (b : Backend) (A : NttVec k) (s : PolyVec k) (e : Poly) : Except Fault NttPoly := do
  let t ← A.innerProduct b (← s.ntt b)
  let t ← t.toMontgomery b
  let t ← t.add (← e.ntt b)
  t.reduce b

/-- Behind the sum with the error there is a reduction, and the sum holds the remainders of the right-hand side, with no factor
left over. -/
theorem keyEquation_spec (hk : k ≤ 4) {A : NttVec k} {s : PolyVec k} {e : Poly}
    (hA : ∀ i : Fin k, AtMost 4095 (A.polys.get i).coeffs) (hs : ∀ i : Fin k, AtMost 3328 (s.polys.get i).coeffs)
    (he : AtMost 3328 e.coeffs) :
    ∃ z : NttPoly, (∀ b : Backend, keyEquation b A s e = z.reduce b) ∧
      Represents 7 (fun t => ∑ l : Fin k, negacyclic (residues (A.preimage.polys.get l).coeffs)
        (residues (s.polys.get l).coeffs) t + residues e.coeffs t) z.coeffs := by
  obtain ⟨hsok, hy, hyrep⟩ := PolyVec.transformed_spec hs
  obtain ⟨-, herror, herep⟩ := forward_spec .reference he
  let product := Lane.innerProduct (A.factorList s.transformed)
  obtain ⟨z, hz⟩ := Coeffs.add_answers (atMost_map_toMontgomery product) herror (by decide)
  have hsum : NttPoly.add ⟨product.map Lane.toMontgomery⟩ ⟨Lane.forward e.coeffs⟩ = .ok ⟨z⟩ := by
    rw [NttPoly.add, hz]
    rfl
  refine ⟨⟨z⟩, ?_, ?_⟩
  · intro b
    unfold keyEquation
    rw [hsok, ok_bind, NttVec.innerProduct_eq_lane b hk hA hy, ok_bind, NttPoly.toMontgomery_eq_lane, ok_bind,
      Poly.ntt_eq_lane b he, ok_bind, hsum, ok_bind]
  · intro j hj m hm
    have hplace : j * 2 ^ (8 - 7) = 2 * j := Nat.mul_comm j 2
    have hproduct := NttVec.remainders_of_represents hk hA hy A.represents_preimage hyrep hj hm
    rw [hplace, Coeffs.residues_add hz (by omega), residues_map_toMontgomery _ (by omega), hproduct, remainder_add,
      ← herep j hj m hm, hplace]

/-- The Montgomery factors of the key equation cancel. For at most four transformed polynomials of twelve-bit coefficients,
which need not be residues, and a secret vector and an error with coefficients below the modulus, every backend computes the
key equation without a fault. The polynomials behind the given ones are determined, each by its own transform; and the result
is canonical and is the transform of the sum of their products with the secret and the error, canonical polynomial `x`, so that
transforming and reducing `x` gives the same words. -/
theorem keyEquation_eq_transform (hk : k ≤ 4) (A : NttVec k) (s : PolyVec k) (e : Poly)
    (hA : ∀ (i : Fin k) (t : Fin 256), ((A.polys.get i).coeffs.get t).toInt.natAbs < 4096)
    (hs : ∀ (i : Fin k) (t : Fin 256), ((s.polys.get i).coeffs.get t).toInt.natAbs < 3329)
    (he : ∀ t : Fin 256, (e.coeffs.get t).toInt.natAbs < 3329) :
    ∃ (a : PolyVec k) (x : Poly) (t : NttPoly),
      (∀ a' : PolyVec k, (∀ i : Fin k, (a'.polys.get i).TransformsTo (A.polys.get i)) ↔ a' = a) ∧
        (∀ i : Fin 256, (x.coeffs.get i).toInt =
          (∑ l : Fin k, negacyclic (integers (a.polys.get l).coeffs) (integers (s.polys.get l).coeffs) i +
            (e.coeffs.get i).toInt) % 3329) ∧
        (∀ b : Backend, keyEquation b A s e = .ok t) ∧ t.coeffs.Canonical ∧
        ∀ b : Backend, (do (← x.ntt b).reduce b) = Except.ok t := by
  let g := fun i => ∑ l : Fin k, negacyclic (integers (A.preimage.polys.get l).coeffs) (integers (s.polys.get l).coeffs) i +
    integers e.coeffs i
  obtain ⟨z, hz, hrep⟩ := keyEquation_spec hk (fun i => atMost_iff.2 (hA i)) (fun i => atMost_iff.2 (hs i)) (atMost_iff.2 he)
  have hclasses : ∀ t < 256, ∑ l : Fin k, negacyclic (residues (A.preimage.polys.get l).coeffs)
      (residues (s.polys.get l).coeffs) t + residues e.coeffs t = residues (Poly.ofIntegers g).coeffs t := by
    intro t ht
    rw [Poly.residues_ofIntegers g ht, Int.cast_add,
      ← congrFun (cast_sum_negacyclic (fun l => A.preimage.polys.get l) fun l => s.polys.get l) t]
    rfl
  have hx : (Poly.ofIntegers g).TransformsTo z :=
    transformsTo_iff_represents.2 ⟨Poly.canonical_ofIntegers g, hrep.congr hclasses⟩
  refine ⟨A.preimage, Poly.ofIntegers g, ⟨z.coeffs.map Lane.canonical⟩, fun a' => NttVec.transformsTo_iff, ?_, ?_,
    Coeffs.canonical_map_canonical _, ?_⟩
  · intro i
    rw [Poly.toInt_ofIntegers, ← entry_eq_get e.coeffs]
    rfl
  · intro b
    rw [hz, NttPoly.reduce_eq_lane]
  · intro b
    rw [hx.transform, NttPoly.reduce_eq_lane]

/-- The key equation at the largest coefficients: twelve-bit fields of ones, and secrets and an error of extreme coefficients. -/
theorem keyEquation_largest :
    (∀ (i : Fin 4) (t : Fin 256), ((NttVec.largestLeft.polys.get i).coeffs.get t).toInt.natAbs < 4096) ∧
      (∀ (i : Fin 4) (t : Fin 256), ((PolyVec.extreme.polys.get i).coeffs.get t).toInt.natAbs < 3329) ∧
      (∀ t : Fin 256, (Poly.extreme.coeffs.get t).toInt.natAbs < 3329) ∧
      ∃ (x : Poly) (t : NttPoly), (∀ b : Backend, keyEquation b NttVec.largestLeft PolyVec.extreme Poly.extreme = .ok t) ∧
        t.coeffs.Canonical ∧ ∀ b : Backend, (do (← x.ntt b).reduce b) = Except.ok t := by
  have hleft : ∀ (i : Fin 4) (t : Fin 256), ((NttVec.largestLeft.polys.get i).coeffs.get t).toInt.natAbs < 4096 :=
    fun i t => (NttVec.natAbs_largestLeft i t).trans_lt (by decide)
  obtain ⟨-, x, t, -, -, hok, hcanonical, htransform⟩ := keyEquation_eq_transform (Nat.le_refl 4) NttVec.largestLeft
    PolyVec.extreme Poly.extreme hleft PolyVec.extreme_accepted Poly.extreme_accepted
  exact ⟨hleft, PolyVec.extreme_accepted, Poly.extreme_accepted, x, t, hok, hcanonical, htransform⟩

end ModuleLattice
