import ModuleLattice.Proofs.RingProduct

/-!
# The polynomial behind a transform

An array of any words is, modulo 3329, the transform of one polynomial with canonical coefficients: also one that no transform
has delivered, such as a row of uniform samples or the twelve-bit fields of an encoding, which need not be residues.
`Poly.TransformsTo` names this polynomial by what the operations do with it, `transformsTo_iff_represents` by the remainders
it leaves, and `transformsTo_iff` says that there is one and only one: the inverse transform of the reduced words, taken out
of Montgomery form.
-/

namespace ModuleLattice

/-! ## Canonical coefficients and residue classes -/

section

variable {n : Nat} {x y : Coeffs n}

theorem Coeffs.Canonical.atMost (hx : x.Canonical) : AtMost 3328 x := by
  intro t ht
  obtain ⟨hlo, hhi⟩ := hx ⟨t, ht⟩
  have hsize : (x.get ⟨t, ht⟩).toInt.natAbs ≤ 3328 := by omega
  rwa [← entry_eq_get] at hsize

/-- Canonical coefficients are determined by their classes. -/
theorem Coeffs.Canonical.eq_of_residues (hx : x.Canonical) (hy : y.Canonical) (h : ∀ t < n, residues x t = residues y t) :
    x = y := by
  refine eq_of_entries ?_
  intro t ht
  have hclass := residue_eq_iff.1 (h t ht)
  have hcx := hx ⟨t, ht⟩
  have hcy := hy ⟨t, ht⟩
  rw [← entry_eq_get] at hcx hcy
  rw [Int.emod_eq_of_lt hcx.1 hcx.2, Int.emod_eq_of_lt hcy.1 hcy.2] at hclass
  exact Int16.toInt.inj hclass

theorem Coeffs.canonical_map_canonical (x : Coeffs n) : Coeffs.Canonical (x.map Lane.canonical) := by
  intro t
  have hv := (canonical_spec (x.get t)).2
  rw [get_map]
  omega

/-- Reduction tells two arrays apart exactly if their classes differ. -/
theorem map_canonical_eq_iff : x.map Lane.canonical = y.map Lane.canonical ↔ ∀ t < n, residues x t = residues y t := by
  constructor
  · intro h t ht
    rw [← residues_map_canonical x ht, h, residues_map_canonical y ht]
  · intro h
    refine x.canonical_map_canonical.eq_of_residues y.canonical_map_canonical ?_
    intro t ht
    rw [residues_map_canonical x ht, residues_map_canonical y ht, h t ht]

/-- Canonical coefficients are their own reduction. -/
theorem Coeffs.Canonical.map_canonical (hx : x.Canonical) : x.map Lane.canonical = x :=
  x.canonical_map_canonical.eq_of_residues hx fun _ ht => residues_map_canonical x ht

end

/-! ## Arrays that represent a polynomial -/

/-- An array of words represents a polynomial if its pairs are the remainders of degree one. -/
theorem represents_seven_iff {q : Nat → ZMod 3329} {x : Coeffs 256} :
    Represents 7 q x ↔ ∀ t < 256, residues x t = remainder 7 q (t / 2) (t % 2) := by
  constructor
  · intro h t ht
    have hplace : t / 2 * 2 ^ (8 - 7) + t % 2 = t := by omega
    have hpair := h (t / 2) (by omega) (t % 2) (by omega)
    rwa [hplace] at hpair
  · intro h j hj m hm
    have hdigits : (j * 2 ^ (8 - 7) + m) / 2 = j ∧ (j * 2 ^ (8 - 7) + m) % 2 = m := by omega
    have hclass := h (j * 2 ^ (8 - 7) + m) (by omega)
    rwa [hdigits.1, hdigits.2] at hclass

/-! ## The polynomial -/

/-- The polynomial with canonical coefficients whose transform is, modulo 3329, a given one. -/
structure Poly.TransformsTo (p : Poly) (x : NttPoly) : Prop where
  canonical : p.coeffs.Canonical
  transform (b : Backend) : (do (← p.ntt b).reduce b) = x.reduce b

/-- A transform and a reduction of a polynomial with coefficients below the modulus. -/
theorem Poly.ntt_reduce_eq_lane (b : Backend) {p : Poly} (hp : AtMost 3328 p.coeffs) :
    (do (← p.ntt b).reduce b) = Except.ok p.reducedTransform := by
  rw [(Poly.transformed_spec hp).1, ok_bind]
  exact (Poly.reducedTransform_spec hp).1 b

/-- A polynomial has a given transform exactly if its remainders are the pairs of the transform. -/
theorem transformsTo_iff_represents {p : Poly} {x : NttPoly} :
    p.TransformsTo x ↔ p.coeffs.Canonical ∧ Represents 7 (residues p.coeffs) x.coeffs := by
  have hclasses (hp : p.coeffs.Canonical) : (∀ b : Backend, (do (← p.ntt b).reduce b) = x.reduce b) ↔
      Represents 7 (residues p.coeffs) x.coeffs := by
    have hrep := represents_seven_iff.1 (Poly.transformed_spec hp.atMost).2.2
    have hlane (b : Backend) : (do (← p.ntt b).reduce b) = x.reduce b ↔
        p.transformed.coeffs.map Lane.canonical = x.coeffs.map Lane.canonical := by
      rw [Poly.ntt_reduce_eq_lane b hp.atMost, NttPoly.reduce_eq_lane, Except.ok.injEq, Poly.reducedTransform, NttPoly.mk.injEq]
      rfl
    calc (∀ b : Backend, (do (← p.ntt b).reduce b) = x.reduce b)
        ↔ p.transformed.coeffs.map Lane.canonical = x.coeffs.map Lane.canonical :=
          ⟨fun h => (hlane .reference).1 (h .reference), fun h b => (hlane b).2 h⟩
      _ ↔ ∀ t < 256, residues x.coeffs t = remainder 7 (residues p.coeffs) (t / 2) (t % 2) := by
          rw [map_canonical_eq_iff]
          refine forall₂_congr ?_
          intro t ht
          rw [hrep t ht, eq_comm]
      _ ↔ Represents 7 (residues p.coeffs) x.coeffs := represents_seven_iff.symm
  constructor
  · rintro ⟨hp, htransform⟩
    exact ⟨hp, (hclasses hp).1 htransform⟩
  · rintro ⟨hp, hrep⟩
    exact ⟨hp, (hclasses hp).2 hrep⟩

/-- The inverse transform of the reduced words, taken out of Montgomery form. -/
def NttPoly.preimage (x : NttPoly) : Poly :=
  ⟨(Lane.inverse (x.coeffs.map Lane.canonical)).map fun c => Lane.canonical (Lane.montgomeryMul c 1)⟩

theorem NttPoly.canonical_preimage (x : NttPoly) : x.preimage.coeffs.Canonical := by
  intro t
  rw [NttPoly.preimage, get_map]
  have hv := (canonical_spec (Lane.montgomeryMul ((Lane.inverse (x.coeffs.map Lane.canonical)).get t) 1)).2
  omega

/-- The classes of the preimage are those of the inverse transform, divided by `2 ^ 16`. -/
theorem NttPoly.residues_preimage (x : NttPoly) {t : Nat} (ht : t < 256) :
    65536 * residues x.preimage.coeffs t = residues (Lane.inverse (x.coeffs.map Lane.canonical)) t := by
  have hone : residue 1 = 1 := rfl
  rw [NttPoly.preimage, residues, entry_map _ _ ht, residue_canonical, mul_comm, residue_montgomeryMul, hone, mul_one]
  rfl

/-- The words represent the preimage, and no polynomial in other classes. -/
theorem NttPoly.represents_iff {q : Nat → ZMod 3329} {x : NttPoly} :
    Represents 7 q x.coeffs ↔ ∀ t < 256, residues x.preimage.coeffs t = q t := by
  have hin : AtMost 16383 (x.coeffs.map Lane.canonical) := (atMost_map_canonical _).mono (by decide)
  rw [← represents_map_canonical_iff, (inverse_spec .reference hin).2.2]
  refine forall₂_congr ?_
  intro t ht
  rw [← NttPoly.residues_preimage x ht]
  constructor
  · intro h
    exact eq_of_mul_radix_eq (by rw [mul_comm, h, mul_comm])
  · intro h
    rw [h]

/-- Whether words represent a polynomial is a matter of its 256 classes. -/
theorem Represents.congr {p q : Nat → ZMod 3329} {x : Coeffs 256} (hx : Represents 7 p x) (h : ∀ t < 256, p t = q t) :
    Represents 7 q x := by
  have hclasses := (NttPoly.represents_iff (x := ⟨x⟩)).1 hx
  exact NttPoly.represents_iff.2 fun t ht => (hclasses t ht).trans (h t ht)

/-- Every transformed polynomial is, modulo 3329, the transform of one polynomial with canonical coefficients, and of no
other. -/
theorem transformsTo_iff {p : Poly} {x : NttPoly} : p.TransformsTo x ↔ p = x.preimage := by
  rw [transformsTo_iff_represents, NttPoly.represents_iff]
  constructor
  · rintro ⟨hp, hclasses⟩
    have hcoeffs : p.coeffs = x.preimage.coeffs :=
      hp.eq_of_residues x.canonical_preimage fun t ht => (hclasses t ht).symm
    exact congrArg Poly.mk hcoeffs
  · rintro rfl
    exact ⟨x.canonical_preimage, fun _ _ => rfl⟩

section

variable {k : Nat}

/-- The preimages of the polynomials of a vector. -/
def NttVec.preimage (x : NttVec k) : PolyVec k := ⟨x.polys.map NttPoly.preimage⟩

/-- Every transformed vector has one preimage. -/
theorem NttVec.transformsTo_iff {x : NttVec k} {p : PolyVec k} :
    (∀ i : Fin k, (p.polys.get i).TransformsTo (x.polys.get i)) ↔ p = x.preimage := by
  simp only [ModuleLattice.transformsTo_iff]
  constructor
  · intro h
    refine congrArg PolyVec.mk ?_
    ext1 i hi
    rw [Vector.getElem_map]
    exact h ⟨i, hi⟩
  · rintro rfl i
    exact get_map _ _ i

/-- The polynomials of a transformed vector hold the remainders of the preimage. -/
theorem NttVec.represents_preimage (x : NttVec k) (i : Fin k) :
    Represents 7 (residues (x.preimage.polys.get i).coeffs) (x.polys.get i).coeffs :=
  (transformsTo_iff_represents.1 (NttVec.transformsTo_iff.2 rfl i)).2

end

end ModuleLattice
