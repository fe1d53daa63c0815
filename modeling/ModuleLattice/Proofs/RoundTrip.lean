import ModuleLattice.Proofs.EntryForm
import ModuleLattice.Proofs.NegacyclicRing

/-!
# The transforms of polynomials

The operations on polynomials check the ranges they promise; `Poly.ntt_eq_lane` and `NttPoly.nttInverse_eq_lane` say that on
accepted coefficients no check fails and no word overflows, and name the one result that every backend returns. From the
meaning of the two transforms follow what the transform is, remainders modulo the 128 quadratic factors, and that the
transforms undo each other up to the radix of Montgomery reduction, with no reduction in between: a transform stays below
`2 ^ 14`, which the inverse accepts, although it only promises to stay below eight times the modulus.
-/

namespace ModuleLattice

open Finset Polynomial

/-! ## Checks on the way -/

/-- The transform of a polynomial with coefficients below the modulus answers with the same words on every backend. -/
theorem Poly.ntt_eq_lane (b : Backend) {p : Poly} (hp : AtMost 3328 p.coeffs) : p.ntt b = .ok ⟨Lane.forward p.coeffs⟩ := by
  rw [Poly.ntt_eq, require_of_atMost rfl hp, ok_bind]
  rfl

/-- The inverse transform of coefficients below `2 ^ 14` answers with the same words on every backend. -/
theorem NttPoly.nttInverse_eq_lane (b : Backend) {h : NttPoly} (hh : AtMost 16383 h.coeffs) :
    h.nttInverse b = .ok ⟨Lane.inverse h.coeffs⟩ := by
  rw [NttPoly.nttInverse_eq, require_of_atMost rfl hh, ok_bind]
  rfl

/-! ## What the transform is -/

/-- The pairs of a transform are the remainders of the polynomial. -/
theorem forward_pair {x : Coeffs 256} (hx : AtMost 3328 x) {j m : Nat} (hj : j < 128) (hm : m < 2) :
    residues (Lane.forward x) (2 * j + m) = remainder 7 (residues x) j m := by
  obtain ⟨-, -, hrep⟩ := forward_spec .reference hx
  rw [Nat.mul_comm]
  exact hrep j hj m hm

/-- The root of a pair is an odd power of 17, with the number of the pair reversed. -/
theorem blockRoot_seven (j : Nat) : blockRoot 7 j = 17 ^ (2 * reverseBits 7 j + 1) := by
  rw [blockRoot, Nat.sub_self, pow_zero, mul_one]
  rfl

/-- A remainder of the last layer, written out over the coefficients of the polynomial. -/
theorem remainder_eq_sum (x : Coeffs 256) (j m : Nat) :
    remainder 7 (residues x) j m = ∑ i : Fin 128, residues x (2 * i + m) * blockRoot 7 j ^ i.val := by
  rw [remainder, sum_range]
  rfl

/-- The forward transform is the number-theoretic transform. On every backend, pair `j` of the transform of a polynomial with
coefficients below the modulus is the polynomial modulo `X ^ 2 - z`, with `z` the power of 17 whose exponent is twice the
reversed `j` plus one. -/
theorem ntt_eq_remainders (p : Poly) (hp : ∀ i : Fin 256, (p.coeffs.get i).toInt.natAbs < 3329) :
    ∃ h : NttPoly, (∀ b : Backend, p.ntt b = .ok h) ∧ ∀ j : Fin 128,
      let z : ZMod 3329 := 17 ^ (2 * reverseBits 7 j + 1)
      residues h.coeffs (2 * j) = ∑ i : Fin 128, residues p.coeffs (2 * i) * z ^ i.val ∧
        residues h.coeffs (2 * j + 1) = ∑ i : Fin 128, residues p.coeffs (2 * i + 1) * z ^ i.val ∧
        polynomialOf (residues p.coeffs) %ₘ (X ^ 2 - C z) =
          C (residues h.coeffs (2 * j)) + C (residues h.coeffs (2 * j + 1)) * X := by
  have hx : AtMost 3328 p.coeffs := atMost_iff.2 hp
  refine ⟨⟨Lane.forward p.coeffs⟩, fun b => Poly.ntt_eq_lane b hx, ?_⟩
  intro j z
  have hroot : z = blockRoot 7 j := (blockRoot_seven j).symm
  have heven : residues (Lane.forward p.coeffs) (2 * j) = remainder 7 (residues p.coeffs) j 0 := by
    rw [← forward_pair hx j.isLt (by decide), Nat.add_zero]
  have hodd : residues (Lane.forward p.coeffs) (2 * j + 1) = remainder 7 (residues p.coeffs) j 1 := by
    rw [← forward_pair hx j.isLt (by decide)]
  rw [hroot]
  refine ⟨?_, ?_, ?_⟩
  · rw [heven, remainder_eq_sum]
    simp only [Nat.add_zero]
  · rw [hodd, remainder_eq_sum]
  · rw [heven, hodd]
    exact modByMonic_eq_remainders _ _

/-- A polynomial of the largest coefficients the transform accepts, with alternating signs. -/
def Poly.extreme : Poly := ⟨Vector.ofFn fun i => if i.val % 2 = 0 then 3328 else -3328⟩

theorem Poly.extreme_accepted (i : Fin 256) : (Poly.extreme.coeffs.get i).toInt.natAbs < 3329 := by
  rw [Poly.extreme, get_ofFn]
  split <;> decide

/-- The transform of a polynomial of extreme coefficients: its first pair, on every backend. -/
theorem ntt_extreme_eq_remainders :
    (∀ i : Fin 256, (Poly.extreme.coeffs.get i).toInt.natAbs < 3329) ∧ ∃ h : NttPoly,
      (∀ b : Backend, Poly.extreme.ntt b = .ok h) ∧ residues h.coeffs 0 = ∑ i : Fin 128, 3328 * (17 : ZMod 3329) ^ i.val := by
  obtain ⟨h, hok, hpair⟩ := ntt_eq_remainders Poly.extreme Poly.extreme_accepted
  refine ⟨Poly.extreme_accepted, h, hok, ?_⟩
  obtain ⟨hfirst, -⟩ := hpair 0
  refine hfirst.trans (sum_congr rfl ?_)
  intro i _
  have hi : 2 * i.val < 256 := by omega
  have hcoeff : entry Poly.extreme.coeffs (2 * i) = 3328 := by
    rw [entry_eq_getElem _ hi]
    simp [Poly.extreme]
  rw [residues, hcoeff]
  rfl

/-! ## Back and forth -/

/-- A coefficient in Montgomery form reduces to the residue class it stands for. -/
theorem montgomeryReduce_of_residue {c : Int16} {y : ZMod 3329} (h : residue c = 65536 * y) :
    ∃ m : Int16, montgomeryReduce c.toInt32 = .ok m ∧ residue m = y := by
  have hrange : -32768 ≤ c.toInt ∧ c.toInt < 32768 := ⟨c.le_toInt, c.toInt_lt⟩
  have hwide : c.toInt32.toInt = c.toInt := Int16.toInt_toInt32 c
  have hfit : c.toInt32.toInt.natAbs ≤ 2038398975 := by omega
  refine ⟨_, montgomeryReduce_eq_lane hfit, eq_of_mul_radix_eq ?_⟩
  rw [residue_montgomeryReduce hfit, hwide, mul_comm, ← h]
  rfl

/-- The inverse of the transform is the polynomial times the radix. -/
theorem residues_inverse_forward {x : Coeffs 256} (hx : AtMost 3328 x) {i : Nat} (hi : i < 256) :
    residues (Lane.inverse (Lane.forward x)) i = 65536 * residues x i := by
  obtain ⟨-, hsize, hrep⟩ := forward_spec .reference hx
  obtain ⟨-, -, hback⟩ := inverse_spec .reference (hsize.mono (by decide))
  exact (hback _).1 hrep i hi

/-- The transform of the inverse is what was given times the radix. The polynomial in question is the one the inverse delivers,
taken out of Montgomery form. -/
theorem residues_forward_inverse {x : Coeffs 256} (hx : AtMost 16383 x) {i : Nat} (hi : i < 256) :
    residues (Lane.forward (Lane.inverse x)) i = 65536 * residues x i := by
  obtain ⟨-, hsmall, hback⟩ := inverse_spec .reference hx
  obtain ⟨-, -, hrep⟩ := forward_spec .reference hsmall
  have hq : Represents 7 (fun i => 169 * residues (Lane.inverse x) i) x := by
    refine (hback _).2 ?_
    intro i _
    rw [← mul_assoc, radix_mul_inverse, one_mul]
  have hplace : i / 2 * 2 ^ (8 - 7) + i % 2 = i := by omega
  have hz := hrep (i / 2) (by omega) (i % 2) (by omega)
  have hx := hq (i / 2) (by omega) (i % 2) (by omega)
  rw [hplace] at hz hx
  rw [hz, hx, remainder_smul, ← mul_assoc, radix_mul_inverse, one_mul]

/-- The transform and its inverse undo each other up to the radix, with no reduction in between. A polynomial with
coefficients below the modulus has a transform below `2 ^ 14`, and the inverse of it, taken out of Montgomery form, is the
polynomial again; and the transform of the inverse of coefficients below `2 ^ 14` is these coefficients times `2 ^ 16`. No
check fails on the way, on any backend. -/
theorem ntt_nttInverse_undo :
    (∀ p : Poly, (∀ i : Fin 256, (p.coeffs.get i).toInt.natAbs < 3329) →
      ∃ h : NttPoly, ∃ r : Poly, (∀ b : Backend, p.ntt b = .ok h) ∧ (∀ i : Fin 256, (h.coeffs.get i).toInt.natAbs < 2 ^ 14) ∧
        (∀ b : Backend, h.nttInverse b = .ok r) ∧ ∀ i : Fin 256, (r.coeffs.get i).toInt.natAbs < 3329 ∧
          ∃ m : Int16, montgomeryReduce (r.coeffs.get i).toInt32 = .ok m ∧ residue m = residue (p.coeffs.get i)) ∧
    (∀ h : NttPoly, (∀ i : Fin 256, (h.coeffs.get i).toInt.natAbs < 2 ^ 14) →
      ∃ y : Poly, ∃ z : NttPoly, (∀ b : Backend, h.nttInverse b = .ok y) ∧ (∀ b : Backend, y.ntt b = .ok z) ∧
        ∀ i : Fin 256, residue (z.coeffs.get i) = 2 ^ 16 * residue (h.coeffs.get i)) := by
  constructor
  · intro p hp
    have hx : AtMost 3328 p.coeffs := atMost_iff.2 hp
    have hin : AtMost 16383 (Lane.forward p.coeffs) := (forward_spec .reference hx).2.1.mono (by decide)
    have hsmall := (inverse_spec .reference hin).2.1
    refine ⟨⟨Lane.forward p.coeffs⟩, ⟨Lane.inverse (Lane.forward p.coeffs)⟩, fun b => Poly.ntt_eq_lane b hx, atMost_iff.1 hin,
      fun b => NttPoly.nttInverse_eq_lane b hin, ?_⟩
    intro i
    refine ⟨atMost_iff.1 hsmall i, ?_⟩
    have hback := residues_inverse_forward hx i.isLt
    rw [residues, residues, entry_eq_get, entry_eq_get] at hback
    exact montgomeryReduce_of_residue hback
  · intro h hh
    have hin : AtMost 16383 h.coeffs := atMost_iff.2 hh
    have hsmall := (inverse_spec .reference hin).2.1
    refine ⟨⟨Lane.inverse h.coeffs⟩, ⟨Lane.forward (Lane.inverse h.coeffs)⟩, fun b => NttPoly.nttInverse_eq_lane b hin,
      fun b => Poly.ntt_eq_lane b hsmall, ?_⟩
    intro i
    have hagain := residues_forward_inverse hin i.isLt
    rw [residues, residues, entry_eq_get, entry_eq_get] at hagain
    rw [hagain]
    norm_num

/-- A transformed polynomial of the largest coefficients the inverse transform accepts. -/
def NttPoly.extreme : NttPoly := ⟨Vector.ofFn fun i => if i.val % 2 = 0 then 16383 else -16383⟩

theorem NttPoly.extreme_accepted (i : Fin 256) : (NttPoly.extreme.coeffs.get i).toInt.natAbs < 2 ^ 14 := by
  rw [NttPoly.extreme, get_ofFn]
  split <;> decide

/-- Back and forth from extreme coefficients, in both directions. -/
theorem ntt_nttInverse_undo_extreme :
    (∀ i : Fin 256, (Poly.extreme.coeffs.get i).toInt.natAbs < 3329) ∧
      (∀ i : Fin 256, (NttPoly.extreme.coeffs.get i).toInt.natAbs < 2 ^ 14) ∧
      (∃ r : Poly, ∀ b : Backend, (Poly.extreme.ntt b >>= fun h => h.nttInverse b) = .ok r) ∧
      ∃ z : NttPoly, ∀ b : Backend, (NttPoly.extreme.nttInverse b >>= fun y => y.ntt b) = .ok z := by
  obtain ⟨h, r, hforward, -, hback, -⟩ := ntt_nttInverse_undo.1 Poly.extreme Poly.extreme_accepted
  obtain ⟨y, z, hinverse, hagain, -⟩ := ntt_nttInverse_undo.2 NttPoly.extreme NttPoly.extreme_accepted
  refine ⟨Poly.extreme_accepted, NttPoly.extreme_accepted, ⟨r, ?_⟩, z, ?_⟩
  · intro b
    rw [hforward, ok_bind, hback]
  · intro b
    rw [hinverse, ok_bind, hagain]

end ModuleLattice
