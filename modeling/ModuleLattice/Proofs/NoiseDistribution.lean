import ModuleLattice.Proofs.FieldCounting
import ModuleLattice.Proofs.NoiseBits
import Mathlib.Data.Fintype.BigOperators

/-!
# The distribution of noise

The coefficients of a noise polynomial have fields of `2 * eta` bits of their own, which together are the whole buffer. So the
buffers of a polynomial are counted coefficient by coefficient. In a field a set bit of the first group and a cleared bit of the
second raise the coefficient alike: the coefficient is the number of such places less `eta` (`card_raising`), every set of places
is that of exactly one field (`raising_bijective`), and there are `Nat.choose (2 * eta) k` sets of `k` places. The coefficients are
therefore distributed as independent centred binomial numbers (`noise_distribution`).
-/

namespace ModuleLattice

open Finset Digits

namespace NoiseWidth

variable (w : NoiseWidth)

/-! ## One coefficient -/

/-- The places of a field at which the bit raises the coefficient: it is set in the first group, or cleared in the second. -/
def raising (d : Nat) : Finset (Fin (2 * w.eta)) := univ.filter fun j => digit 1 d j = if j.val < w.eta then 1 else 0

/-- The places that raise a coefficient are as many as the coefficient and `eta` together. -/
theorem card_raising (d : Nat) : (w.raising d).card + w.ones d 1 = w.ones d 0 + w.eta := by
  have hfirst : ∑ j ∈ range w.eta, (if digit 1 d j = (if j < w.eta then 1 else 0) then 1 else 0) = w.ones d 0 := by
    refine sum_congr rfl fun j hj => ?_
    have hbit := digit_lt 1 d j
    rw [if_pos (mem_range.1 hj), Nat.mul_zero, Nat.zero_add]
    split <;> omega
  have hsecond : ∑ j ∈ range w.eta, (if digit 1 d (w.eta + j) = (if w.eta + j < w.eta then 1 else 0) then 1 else 0) + w.ones d 1 =
      w.eta := by
    have hplace : ∀ j ∈ range w.eta,
        (if digit 1 d (w.eta + j) = (if w.eta + j < w.eta then 1 else 0) then 1 else 0) + digit 1 d (w.eta * 1 + j) = 1 := by
      intro j _
      have hbit := digit_lt 1 d (w.eta + j)
      rw [if_neg (Nat.not_lt.2 (Nat.le_add_right _ _)), Nat.mul_one]
      split <;> omega
    rw [ones, ← sum_add_distrib, sum_congr rfl hplace, sum_const, card_range, smul_eq_mul, Nat.mul_one]
  rw [raising, card_filter,
    Fin.sum_univ_eq_sum_range (fun j => if digit 1 d j = (if j < w.eta then 1 else 0) then 1 else 0) (2 * w.eta), two_mul,
    sum_range_add, hfirst, Nat.add_assoc, hsecond]

/-- Every set of places is that of exactly one field. -/
theorem raising_bijective : Function.Bijective fun d : Fin (2 ^ (2 * w.eta)) => w.raising d := by
  refine (Fintype.bijective_iff_injective_and_card _).2 ⟨fun d e h => ?_, by simp⟩
  have hd : d.val < 2 ^ (1 * (2 * w.eta)) := (Nat.one_mul (2 * w.eta)).symm ▸ d.isLt
  have he : e.val < 2 ^ (1 * (2 * w.eta)) := (Nat.one_mul (2 * w.eta)).symm ▸ e.isLt
  refine Fin.ext (eq_of_digits hd he fun j hj => ?_)
  have hdbit := digit_lt 1 d j
  have hebit := digit_lt 1 e j
  have hplace : digit 1 d j = (if j < w.eta then 1 else 0) ↔ digit 1 e j = (if j < w.eta then 1 else 0) := by
    simpa [raising] using Finset.ext_iff.1 h ⟨j, hj⟩
  split at hplace <;> omega

/-- A coefficient from `-eta` on has as many fields as there are sets of so many places as it and `eta` together. -/
theorem card_fields_of_coefficient {c : Int} (hc : -(w.eta : Int) ≤ c) :
    (univ.filter fun d : Fin (2 ^ (2 * w.eta)) => (w.ones d 0 : Int) - w.ones d 1 = c).card =
      (2 * w.eta).choose (w.eta + c).toNat := by
  have hplaces := card_powersetCard (w.eta + c).toNat (univ : Finset (Fin (2 * w.eta)))
  rw [card_univ, Fintype.card_fin] at hplaces
  rw [← hplaces]
  refine card_bijective _ w.raising_bijective fun d => ?_
  have hcard := w.card_raising d
  simp only [mem_filter, mem_univ, true_and, mem_powersetCard, subset_univ]
  omega

/-! ## Whole polynomials -/

/-- The buffers of just the length needed that are sampled to a polynomial. -/
def buffers (p : Poly) : Set Bytes := {buffer | buffer.length = 64 * w.eta ∧ Poly.noiseOfBytes w buffer = .ok p}

/-- The buffers of a polynomial are as many as there are choices of a field for each coefficient. -/
theorem encard_buffers (p : Poly) :
    (w.buffers p).encard =
      (∏ i : Fin 256, (univ.filter fun d : Fin (2 ^ (2 * w.eta)) =>
        (w.ones d 0 : Int) - w.ones d 1 = (p.coeffs.get i).toInt).card : Nat) := by
  let choices (i : Fin 256) : Finset (Fin (2 ^ (2 * w.eta))) :=
    univ.filter fun d => (w.ones d 0 : Int) - w.ones d 1 = (p.coeffs.get i).toInt
  have hbits : 8 * (64 * w.eta) = 2 * w.eta * 256 := by omega
  have hfields (buffer : Bytes) (hlength : buffer.length = 64 * w.eta) :
      Poly.noiseOfBytes w buffer = .ok p ↔ fields (2 * w.eta) 256 buffer ∈ Fintype.piFinset choices := by
    rw [Poly.noiseOfBytes_eq_ok_iff, w.sample_eq_ok_iff hlength.ge, Fintype.mem_piFinset]
    refine forall_congr' fun i => ?_
    rw [bitDifference_eq_ones, mem_filter, and_iff_right (mem_univ _), eq_comm]
    rfl
  rw [buffers, encard_bytes hbits hfields, filter_univ_mem, Fintype.card_piFinset]

end NoiseWidth

/-- Noise has the distribution of independent centred binomial numbers. For a polynomial with coefficients between `-eta` and `eta`
the number of buffers of `64 * eta` bytes that are sampled to it is the product, over the coefficients `c`, of the binomials
`Nat.choose (2 * eta) (eta + c)`; no buffer is sampled to another polynomial. -/
theorem noise_distribution (w : NoiseWidth) (p : Poly) :
    ((∀ i : Fin 256, -(w.eta : Int) ≤ (p.coeffs.get i).toInt ∧ (p.coeffs.get i).toInt ≤ w.eta) →
      (w.buffers p).encard = (∏ i : Fin 256, (2 * w.eta).choose (w.eta + (p.coeffs.get i).toInt).toNat : Nat)) ∧
      ((¬∀ i : Fin 256, -(w.eta : Int) ≤ (p.coeffs.get i).toInt ∧ (p.coeffs.get i).toInt ≤ w.eta) →
        (w.buffers p).encard = 0) := by
  constructor
  · intro hrange
    rw [w.encard_buffers]
    refine congrArg _ (prod_congr rfl fun i _ => ?_)
    exact w.card_fields_of_coefficient (hrange i).1
  · intro hrange
    refine Set.encard_eq_zero.2 (Set.eq_empty_of_forall_notMem ?_)
    rintro buffer ⟨hlength, hp⟩
    refine hrange fun i => ?_
    rw [(w.sample_eq_ok_iff hlength.ge).1 (Poly.noiseOfBytes_eq_ok_iff.1 hp) i]
    exact w.bitDifference_bounds buffer i

/-- With width three, every coefficient is -2 for `6 ^ 256` buffers, and 4 for none. -/
theorem noise_distribution_constant :
    (∀ i : Fin 256, -(NoiseWidth.three.eta : Int) ≤ ((Vector.replicate 256 (-2 : Int16)).get i).toInt ∧
        ((Vector.replicate 256 (-2 : Int16)).get i).toInt ≤ NoiseWidth.three.eta) ∧
      (¬∀ i : Fin 256, -(NoiseWidth.three.eta : Int) ≤ ((Vector.replicate 256 (4 : Int16)).get i).toInt ∧
        ((Vector.replicate 256 (4 : Int16)).get i).toInt ≤ NoiseWidth.three.eta) ∧
      (NoiseWidth.three.buffers ⟨Vector.replicate 256 (-2)⟩).encard = (6 ^ 256 : Nat) ∧
      (NoiseWidth.three.buffers ⟨Vector.replicate 256 4⟩).encard = 0 := by
  have hinside : ∀ i : Fin 256, -(NoiseWidth.three.eta : Int) ≤ ((Vector.replicate 256 (-2 : Int16)).get i).toInt ∧
      ((Vector.replicate 256 (-2 : Int16)).get i).toInt ≤ NoiseWidth.three.eta := by
    intro i
    rw [get_replicate]
    decide
  have houtside : ¬∀ i : Fin 256, -(NoiseWidth.three.eta : Int) ≤ ((Vector.replicate 256 (4 : Int16)).get i).toInt ∧
      ((Vector.replicate 256 (4 : Int16)).get i).toInt ≤ NoiseWidth.three.eta := by
    intro h
    have hfirst := (h 0).2
    rw [get_replicate] at hfirst
    exact absurd hfirst (by decide)
  refine ⟨hinside, houtside, ?_, (noise_distribution .three ⟨Vector.replicate 256 4⟩).2 houtside⟩
  rw [(noise_distribution .three ⟨Vector.replicate 256 (-2)⟩).1 hinside]
  have hfactor (i : Fin 256) : (2 * NoiseWidth.three.eta).choose
      (NoiseWidth.three.eta + ((Vector.replicate 256 (-2 : Int16)).get i).toInt).toNat = 6 := by
    rw [get_replicate]
    rfl
  rw [prod_congr rfl fun i _ => hfactor i, prod_const, card_univ, Fintype.card_fin]

end ModuleLattice
