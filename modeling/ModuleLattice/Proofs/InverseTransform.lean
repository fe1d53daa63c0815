import ModuleLattice.Ring.NttPoly
import ModuleLattice.Proofs.ForwardTransform
import Mathlib.Tactic.LinearCombination

/-!
# The inverse transform

A layer of the inverse transform undoes the layer of the forward transform with the same blocks, up to a factor of two: it leads
from the remainders of `q` after `l + 1` layers to the remainders of `2 q` after `l` layers, and from nothing else
(`inverseLayer_step`). The equivalence matters: since every array of words is led somewhere by the seven layers, every array
represents a polynomial. The closing scale turns the factor 128 of the seven layers into the radix `2 ^ 16`.

Sizes need no path here. A word below `2 ^ 14` has room for one addition, and both results of a butterfly are reduced.
-/

namespace ModuleLattice

/-- Two is a unit modulo 3329, with inverse 1665. -/
theorem eq_of_two_mul_eq {x y : ZMod 3329} (h : 2 * x = 2 * y) : x = y := by
  have hinv : (1665 : ZMod 3329) * 2 = 1 := by decide +kernel
  calc x = 1665 * 2 * x := by rw [hinv, one_mul]
    _ = 1665 * 2 * y := by rw [mul_assoc, h, mul_assoc]
    _ = y := by rw [hinv, one_mul]

/-- A place of an array of blocks is in the lower or in the upper half of its block. -/
theorem place_in_halves {blocks half i : Nat} (hi : i < blocks * (half + half)) :
    ∃ (c : Fin blocks) (m : Fin half), i = c * (half + half) + m ∨ i = c * (half + half) + (half + m) := by
  have hpos : 0 < half + half := Nat.pos_of_lt_mul_left hi
  have hc : i / (half + half) < blocks := by rwa [Nat.div_lt_iff_lt_mul hpos]
  have hi' : i / (half + half) * (half + half) + i % (half + half) = i := Nat.div_add_mod' i (half + half)
  have hmod := Nat.mod_lt i hpos
  by_cases hm : i % (half + half) < half
  · exact ⟨⟨_, hc⟩, ⟨_, hm⟩, Or.inl hi'.symm⟩
  · refine ⟨⟨_, hc⟩, ⟨i % (half + half) - half, by omega⟩, Or.inr ?_⟩
    dsimp only
    omega

/-! ## One layer -/

/-- The layer of the inverse transform with every butterfly in a lane. -/
def Lane.inverseLayer (blocks half : Nat) (x : Coeffs (blocks * (half + half))) : Coeffs (blocks * (half + half)) :=
  Lane.layer (fun i => Lane.inversePair (entry twiddles (2 * blocks - 1 - i))) x

/-- The two blocks a block is split into represent a polynomial exactly if their sum and their scaled difference represent its
double. -/
theorem merge_iff {s r x y e o : ZMod 3329} (hsr : s * r = -1) :
    (x = e + s * o ∧ y = e - s * o) ↔ (x + y = 2 * e ∧ r * (y - x) = 2 * o) := by
  constructor
  · rintro ⟨rfl, rfl⟩
    refine ⟨by ring, ?_⟩
    linear_combination (-2 * o) * hsr
  · rintro ⟨hsum, hdiff⟩
    constructor
    · apply eq_of_two_mul_eq
      linear_combination hsum - (y - x) * hsr + s * hdiff
    · apply eq_of_two_mul_eq
      linear_combination hsum + (y - x) * hsr - s * hdiff

/-- A layer answers on words below `2 ^ 14` with words below `2 ^ 14`; it leads from the remainders of a polynomial to those
of its double, with twice as long blocks. -/
theorem inverseLayer_step (b : Backend) (l blocks half : Nat) (hl : l ≤ 6) (hblocks : blocks = 2 ^ l)
    (hhalf : half = 2 ^ (7 - l)) (hb : blocks ≤ 64) {x : Coeffs (blocks * (half + half))} (hx : AtMost 16383 x) :
    inverseLayer b blocks half hb x = .ok (Lane.inverseLayer blocks half x) ∧
      AtMost 16383 (Lane.inverseLayer blocks half x) ∧
      ∀ q, Represents (l + 1) q x ↔ Represents l (fun i => 2 * q i) (Lane.inverseLayer blocks half x) := by
  have hlen : 2 ^ (8 - l) = half + half := by
    rw [hhalf, ← two_mul, ← pow_succ', show 7 - l + 1 = 8 - l by omega]
  have hnext : 2 ^ (8 - (l + 1)) = half := by
    rw [hhalf, show 8 - (l + 1) = 7 - l by omega]
  have hroot : ∀ c : Fin blocks, residue (entry twiddles (2 * blocks - 1 - c)) = splitRoot l (2 ^ l - 1 - c) * 65536 ∧
      splitRoot l c * splitRoot l (2 ^ l - 1 - c) = -1 ∧ (entry twiddles (2 * blocks - 1 - c)).toInt.natAbs ≤ 1664 := by
    intro c
    have hc : c.val < 2 ^ l := hblocks ▸ c.isLt
    have hk : 2 * blocks - 1 - c.val = 2 ^ l + (2 ^ l - 1 - c) := by omega
    have hin : 2 ^ l + (2 ^ l - 1 - c.val) < 128 := by omega
    rw [hk, entry_eq_getElem twiddles hin]
    exact ⟨residue_twiddle hl (by omega) hin, splitRoot_mul_mirror hl (by omega), (twiddles_spec _ hin).2⟩
  have hpair := fun (c : Fin blocks) (i : Fin half) =>
    inversePair_spec (hroot c).1 (hroot c).2.2 (hx (c * (half + half) + i) (block_index_lt c.isLt (by omega)))
      (hx (c * (half + half) + (half + i)) (block_index_lt c.isLt (by omega)))
  have hlow := entry_layer_low (fun i => Lane.inversePair (entry twiddles (2 * blocks - 1 - i))) x
  have hhigh := entry_layer_high (fun i => Lane.inversePair (entry twiddles (2 * blocks - 1 - i))) x
  refine ⟨?_, ?_, ?_⟩
  · have htable : (fun c : Fin blocks => twiddles[2 * blocks - 1 - c.val]) =
        fun c : Fin blocks => entry twiddles (2 * blocks - 1 - c) :=
      funext fun c => (entry_eq_getElem twiddles (by omega)).symm
    unfold inverseLayer
    rw [htable]
    exact layer_eq_lane fun c i _ => (hpair c i).1
  · intro i hi
    rcases place_in_halves hi with ⟨c, m, rfl | rfl⟩
    · rw [Lane.inverseLayer, hlow]
      exact (hpair c m).2.1
    · rw [Lane.inverseLayer, hhigh]
      exact (hpair c m).2.2.1
  · intro q
    -- Entry by entry, the two sides are the two sides of `merge_iff`.
    have hmerge : ∀ (c : Fin blocks) (m : Fin half),
        (residues x (c * (half + half) + m) = remainder (l + 1) q (2 * c) m ∧
          residues x (c * (half + half) + (half + m)) = remainder (l + 1) q (2 * c + 1) m) ↔
        (residues (Lane.inverseLayer blocks half x) (c * (half + half) + m) = remainder l (fun i => 2 * q i) c m ∧
          residues (Lane.inverseLayer blocks half x) (c * (half + half) + (half + m)) =
            remainder l (fun i => 2 * q i) c (half + m)) := by
      intro c m
      simp only [residues, Lane.inverseLayer]
      rw [remainder_left hl, remainder_right hl, remainder_smul, remainder_smul, ← hhalf, merge_iff (hroot c).2.1,
        hlow, hhigh, (hpair c m).2.2.2.1, (hpair c m).2.2.2.2]
    unfold Represents
    rw [hlen, hnext, ← hblocks]
    constructor
    · intro h c hc i hi
      have hboth := fun m : Fin half => (hmerge ⟨c, hc⟩ m).1 ⟨
        (half_offset c half m).1 ▸ h (2 * c) (by omega) m m.isLt,
        (half_offset c half m).2 ▸ h (2 * c + 1) (by omega) m m.isLt⟩
      by_cases hm : i < half
      · exact (hboth ⟨i, hm⟩).1
      · have hi' : half + (i - half) = i := by omega
        exact hi' ▸ (hboth ⟨i - half, by omega⟩).2
    · intro h d hd m hm
      rcases halves_of_block hblocks hd with ⟨c, hc, rfl | rfl⟩
      · rw [(half_offset c half m).1]
        exact ((hmerge ⟨c, hc⟩ ⟨m, hm⟩).2 ⟨h c hc m (by omega), h c hc (half + m) (by omega)⟩).1
      · rw [(half_offset c half m).2]
        exact ((hmerge ⟨c, hc⟩ ⟨m, hm⟩).2 ⟨h c hc m (by omega), h c hc (half + m) (by omega)⟩).2

/-! ## All seven layers and the scale -/

/-- A pass that treats every coefficient alone is a map in lanes if the scalar step always answers with what a lane computes. -/
theorem pointwise_eq_lane (b : Backend) {n : Nat} {scalar : Int16 → Except Fault Int16} {lane : Int16 → Int16} (x : Coeffs n)
    (h : ∀ c, scalar c = .ok (lane c)) : b.pointwise scalar lane x = .ok (x.map lane) := by
  cases b with
  | reference =>
    refine ofFnM_eq_ok_iff.2 ?_
    intro i
    rw [h]
    simp
  | simd width => rfl

/-- Every backend reduces any coefficients to what the lanes compute. -/
theorem Backend.reduce_eq_lane (b : Backend) {n : Nat} (x : Coeffs n) : b.reduce x = .ok (x.map Lane.canonical) :=
  pointwise_eq_lane b x fun c => (canonical_spec c).1

/-- Every backend moves any coefficients into the Montgomery form that the lanes compute. -/
theorem Backend.toMontgomery_eq_lane (b : Backend) {n : Nat} (x : Coeffs n) : b.toMontgomery x = .ok (x.map Lane.toMontgomery) :=
  pointwise_eq_lane b x fun c => montgomeryMul_eq_lane c montgomerySquare

/-- The closing scale never overflows. -/
theorem Backend.scale_eq_lane (b : Backend) (x : Coeffs 256) :
    b.pointwise (fun c => montgomeryMul c inverseScale) (fun c => Lane.montgomeryMul c inverseScale) x =
      .ok (x.map fun c => Lane.montgomeryMul c inverseScale) :=
  pointwise_eq_lane b x fun c => montgomeryMul_eq_lane c inverseScale

/-- An entry of a mapped array. -/
theorem entry_map {n : Nat} (f : Int16 → Int16) (x : Coeffs n) {i : Nat} (hi : i < n) : entry (x.map f) i = f (entry x i) := by
  rw [entry_eq_getElem _ hi, entry_eq_getElem _ hi, Vector.getElem_map]

/-- The inverse transform with every butterfly and the scale in lanes. -/
def Lane.inverse (x : Coeffs 256) : Coeffs 256 :=
  let x := Lane.inverseLayer 64 2 x
  let x := Lane.inverseLayer 32 4 x
  let x := Lane.inverseLayer 16 8 x
  let x := Lane.inverseLayer 8 16 x
  let x := Lane.inverseLayer 4 32 x
  let x := Lane.inverseLayer 2 64 x
  let x := Lane.inverseLayer 1 128 x
  x.map fun c => Lane.montgomeryMul c inverseScale

/-- A Montgomery product with the closing scale turns the factor of the seven layers into the radix. -/
theorem residue_inverseScale_iff {c : Int16} {y : ZMod 3329} :
    residue (Lane.montgomeryMul c inverseScale) = 65536 * y ↔ residue c = 128 * y := by
  have hscale : residue inverseScale * 128 = 65536 * 65536 := by decide +kernel
  have hmul := residue_montgomeryMul c inverseScale
  constructor
  · intro h
    apply eq_of_mul_radix_eq
    apply eq_of_mul_radix_eq
    rw [h] at hmul
    linear_combination -residue c * hscale - 128 * hmul
  · intro h
    apply eq_of_mul_radix_eq
    rw [hmul, h]
    linear_combination y * hscale

/-- Without a split, an array represents the polynomial of its own residue classes. -/
theorem represents_zero_iff {q : Nat → ZMod 3329} {x : Coeffs 256} : Represents 0 q x ↔ ∀ i < 256, residues x i = q i := by
  constructor
  · intro h i hi
    have := h 0 (by decide) i hi
    rwa [remainder_zero, Nat.zero_mul, Nat.zero_add] at this
  · intro h b hb m hm
    obtain rfl : b = 0 := by omega
    rw [remainder_zero, Nat.zero_mul, Nat.zero_add]
    exact h m hm

/-- The inverse transform of words below `2 ^ 14`: every backend answers with the same words, each of them below the modulus,
and they are the coefficients of the polynomial whose remainders were given, times `2 ^ 16`. -/
theorem inverse_spec (b : Backend) {x : Coeffs 256} (hx : AtMost 16383 x) :
    b.inverse x = .ok (Lane.inverse x) ∧ AtMost 3328 (Lane.inverse x) ∧
      ∀ q, Represents 7 q x ↔ ∀ i < 256, residues (Lane.inverse x) i = 65536 * q i := by
  obtain ⟨e6, s6, r6⟩ := inverseLayer_step b 6 64 2 (by decide) rfl rfl (by decide) hx
  obtain ⟨e5, s5, r5⟩ := inverseLayer_step b 5 32 4 (by decide) rfl rfl (by decide) s6
  obtain ⟨e4, s4, r4⟩ := inverseLayer_step b 4 16 8 (by decide) rfl rfl (by decide) s5
  obtain ⟨e3, s3, r3⟩ := inverseLayer_step b 3 8 16 (by decide) rfl rfl (by decide) s4
  obtain ⟨e2, s2, r2⟩ := inverseLayer_step b 2 4 32 (by decide) rfl rfl (by decide) s3
  obtain ⟨e1, s1, r1⟩ := inverseLayer_step b 1 2 64 (by decide) rfl rfl (by decide) s2
  obtain ⟨e0, s0, r0⟩ := inverseLayer_step b 0 1 128 (by decide) rfl rfl (by decide) s1
  refine ⟨?_, ?_, ?_⟩
  · unfold Backend.inverse
    rw [e6, ok_bind, e5, ok_bind, e4, ok_bind, e3, ok_bind, e2, ok_bind, e1, ok_bind, e0, ok_bind]
    exact b.scale_eq_lane _
  · intro i hi
    have hscale : inverseScale.toInt.natAbs ≤ 1441 := by decide
    have hsize := natAbs_montgomeryMul_le (s0 i hi) hscale
    unfold Lane.inverse
    rw [entry_map _ _ hi]
    exact hsize.trans (by decide)
  · intro q
    rw [r6, r5, r4, r3, r2, r1, r0, represents_zero_iff]
    refine forall₂_congr ?_
    intro i hi
    unfold Lane.inverse
    rw [residues, residues, entry_map _ _ hi, residue_inverseScale_iff]
    constructor
    · intro h
      rw [h]
      ring
    · intro h
      rw [h]
      ring

end ModuleLattice
