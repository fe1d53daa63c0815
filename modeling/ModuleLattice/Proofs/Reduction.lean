import ModuleLattice.Field
import ModuleLattice.Proofs.CheckedWord
import Mathlib.Data.ZMod.Basic

/-!
# What the reductions compute

The residue class of a word is an element of `ZMod 3329`. Montgomery reduction divides a class by `2 ^ 16`, Barrett reduction
and `canonical` keep it, and each delivers words in a range of its own. The checked routines and the lanes agree: the checked
one answers with what the lane computes, on every word for the products and for `canonical`, and on every number Montgomery
reduction accepts for the reduction itself.
-/

namespace ModuleLattice

/-- The residue class of a word. -/
def residue (c : Int16) : ZMod 3329 := (c.toInt : ZMod 3329)

/-- Two words are in one class exactly if they leave the same remainder. -/
theorem residue_eq_iff {c d : Int16} : residue c = residue d ↔ c.toInt % 3329 = d.toInt % 3329 :=
  ZMod.intCast_eq_intCast_iff' _ _ _

/-- The radix of Montgomery reduction is a unit modulo 3329, with inverse 169. -/
theorem radix_mul_inverse : (65536 : ZMod 3329) * 169 = 1 := by
  decide +kernel

/-- The radix of Montgomery reduction cancels. -/
theorem eq_of_mul_radix_eq {x y : ZMod 3329} (h : x * 65536 = y * 65536) : x = y := by
  calc x = x * 65536 * 169 := by rw [mul_assoc, radix_mul_inverse, mul_one]
    _ = y * 65536 * 169 := by rw [h]
    _ = y := by rw [mul_assoc, radix_mul_inverse, mul_one]

/-- A word inside the symmetric range of an array check, as a pair of inequalities. -/
theorem magnitudeBelow_iff {bound : Nat} {c : Int16} :
    (Range.magnitudeBelow bound).Holds c ↔ c.toInt.natAbs < bound := Iff.rfl

/-- Every coefficient is a canonical residue. -/
def Coeffs.Canonical {n : Nat} (x : Coeffs n) : Prop := ∀ t : Fin n, 0 ≤ (x.get t).toInt ∧ (x.get t).toInt < 3329

/-- A check of an array against the canonical range, entry by entry. -/
theorem holds_iff_canonical {n : Nat} {c : Contract} (hc : c.range = .halfOpen 0 3329) {x : Coeffs n} :
    c.Holds x ↔ x.Canonical := by
  unfold Contract.Holds
  rw [hc]
  rfl

/-- A check against the canonical range passes on canonical entries. -/
theorem require_of_canonical {n : Nat} {c : Contract} (hc : c.range = .halfOpen 0 3329) {x : Coeffs n} (hx : x.Canonical) :
    c.require x = .ok () :=
  Contract.require_eq_ok_iff.2 ((holds_iff_canonical hc).2 hx)

/-! ## Montgomery reduction -/

/-- The lane form of Montgomery reduction takes the same multiple of the modulus off as the scalar one. -/
theorem Lane.montgomeryReduce_eq (a : Int32) :
    Lane.montgomeryReduce a = ((a - (a.toInt16 * modulusInverse).toInt32 * modulus32) >>> 16).toInt16 := by
  simp only [Lane.montgomeryReduce, Word.shift_up_down, Int32.toInt16_mul, Int16.toInt16_toInt32]

/-- From a number Montgomery reduction accepts the multiple of the modulus by any 16-bit word can be taken off: the multiple and the
difference have words. -/
theorem montgomery_steps {a : Int32} (h : a.toInt.natAbs ≤ 2038398975) (t : Int16) :
    Word.mul32 t.toInt32 modulus32 = .ok (t.toInt32 * modulus32) ∧
      Word.sub32 a (t.toInt32 * modulus32) = .ok (a - t.toInt32 * modulus32) ∧
      (a - t.toInt32 * modulus32).toInt = a.toInt - t.toInt * 3329 := by
  have hlo := t.le_toInt
  have hhi := t.toInt_lt
  have hq : modulus32.toInt = 3329 := rfl
  have hmul : -2147483648 ≤ t.toInt32.toInt * modulus32.toInt ∧ t.toInt32.toInt * modulus32.toInt < 2147483648 := by
    rw [Int16.toInt_toInt32, hq]
    omega
  have hval := Word.toInt_mul32 hmul
  rw [Int16.toInt_toInt32, hq] at hval
  have hsub : -2147483648 ≤ a.toInt - (t.toInt32 * modulus32).toInt ∧ a.toInt - (t.toInt32 * modulus32).toInt < 2147483648 := by
    rw [hval]
    omega
  refine ⟨Word.mul32_eq_ok_iff.2 ⟨hmul, rfl⟩, Word.sub32_eq_ok_iff.2 ⟨hsub, rfl⟩, ?_⟩
  rw [Word.toInt_sub32 hsub, hval]

/-- The multiple taken off is the one that makes the low half vanish, and what is left in the high half fits a 16-bit word. -/
theorem Lane.montgomeryReduce_exact {a : Int32} (h : a.toInt.natAbs ≤ 2038398975) :
    (a - (a.toInt16 * modulusInverse).toInt32 * modulus32).toInt = (Lane.montgomeryReduce a).toInt * 65536 := by
  have hval : (a.toInt16 * modulusInverse).toInt = (a.toInt * -3327).bmod 65536 := by
    rw [Int16.toInt_mul, Int32.toInt_toInt16]
    exact Int.bmod_mul_bmod
  obtain ⟨-, -, hsub⟩ := montgomery_steps h (a.toInt16 * modulusInverse)
  rw [Lane.montgomeryReduce_eq, Int32.toInt_toInt16, Word.toInt_shiftRight_sixteen, hsub, hval]
  simp only [Int.bmod_def]
  omega

/-- The value of a Montgomery reduction: a multiple of the modulus by a 16-bit number is taken off, and what is left is
divided by `2 ^ 16` without remainder. -/
theorem Lane.montgomeryReduce_value {a : Int32} (h : a.toInt.natAbs ≤ 2038398975) :
    ∃ t : Int, -32768 ≤ t ∧ t < 32768 ∧ (Lane.montgomeryReduce a).toInt * 65536 = a.toInt - t * 3329 := by
  refine ⟨(a.toInt16 * modulusInverse).toInt, Int16.le_toInt _, Int16.toInt_lt _, ?_⟩
  rw [← Lane.montgomeryReduce_exact h, (montgomery_steps h _).2.2]

/-- The numbers Montgomery reduction accepts, by their size. -/
theorem montgomeryInput_iff {a : Int32} :
    (-montgomeryLimit ≤ a.toInt ∧ a.toInt ≤ montgomeryLimit) ↔ a.toInt.natAbs ≤ 2038398975 := by
  unfold montgomeryLimit
  omega

/-- Checked Montgomery reduction answers exactly on the numbers it accepts, with the word the lane computes. -/
theorem montgomeryReduce_eq_ok_iff {a : Int32} {r : Int16} :
    montgomeryReduce a = .ok r ↔ a.toInt.natAbs ≤ 2038398975 ∧ Lane.montgomeryReduce a = r := by
  rw [montgomeryReduce, ensure_bind_eq_ok_iff, montgomeryInput_iff]
  refine and_congr_right fun h => ?_
  obtain ⟨hmul, hsub, -⟩ := montgomery_steps h (a.toInt16 * modulusInverse)
  dsimp only
  rw [hmul, ok_bind, hsub, ok_bind, ← Lane.montgomeryReduce_eq]
  simp [pure, Except.pure]

/-- Montgomery reduction of an accepted number answers. -/
theorem montgomeryReduce_eq_lane {a : Int32} (h : a.toInt.natAbs ≤ 2038398975) :
    montgomeryReduce a = .ok (Lane.montgomeryReduce a) :=
  montgomeryReduce_eq_ok_iff.2 ⟨h, rfl⟩

/-- Montgomery reduction divides a residue class by `2 ^ 16`. -/
theorem residue_montgomeryReduce {a : Int32} (h : a.toInt.natAbs ≤ 2038398975) :
    residue (Lane.montgomeryReduce a) * 65536 = (a.toInt : ZMod 3329) := by
  obtain ⟨t, -, -, hv⟩ := Lane.montgomeryReduce_value h
  have hc := congrArg (Int.cast : Int → ZMod 3329) hv
  have hq : (3329 : ZMod 3329) = 0 := ZMod.natCast_self 3329
  push_cast at hc
  rw [hq, mul_zero, sub_zero] at hc
  exact hc

/-- The size of a Montgomery reduction: a `2 ^ 16`th of the number, and half the modulus. -/
theorem natAbs_montgomeryReduce_le {a : Int32} (h : a.toInt.natAbs ≤ 2038398975) :
    (Lane.montgomeryReduce a).toInt.natAbs ≤ (a.toInt.natAbs + 109084672) / 65536 := by
  obtain ⟨t, hlo, hhi, hv⟩ := Lane.montgomeryReduce_value h
  omega

/-! ## Montgomery products -/

/-- The product of two 16-bit words is far inside what Montgomery reduction accepts. -/
theorem toInt_mul_widened (a b : Int16) : (a.toInt32 * b.toInt32).toInt = a.toInt * b.toInt ∧
    a.toInt.natAbs * b.toInt.natAbs ≤ 1073741824 := by
  have hab : a.toInt.natAbs * b.toInt.natAbs ≤ 32768 * 32768 :=
    Nat.mul_le_mul (Word.natAbs_toInt_le a) (Word.natAbs_toInt_le b)
  refine ⟨?_, hab⟩
  rw [Word.toInt_mul32] <;> rw [Int16.toInt_toInt32, Int16.toInt_toInt32]
  rw [← Int.natAbs_mul] at hab
  omega

/-- The product of two 16-bit words always has a 32-bit word. -/
theorem mul32_widened (a b : Int16) : Word.mul32 a.toInt32 b.toInt32 = .ok (a.toInt32 * b.toInt32) := by
  have hb := (toInt_mul_widened a b).2
  rw [← Int.natAbs_mul] at hb
  refine Word.mul32_eq_ok_iff.2 ⟨?_, rfl⟩
  rw [Int16.toInt_toInt32, Int16.toInt_toInt32]
  omega

/-- Any two words have a Montgomery product, the one the lane computes. -/
theorem montgomeryMul_eq_lane (a b : Int16) : montgomeryMul a b = .ok (Lane.montgomeryMul a b) := by
  obtain ⟨hv, hb⟩ := toInt_mul_widened a b
  rw [← Int.natAbs_mul] at hb
  unfold montgomeryMul
  rw [mul32_widened]
  exact montgomeryReduce_eq_lane (by rw [hv]; omega)

/-- A Montgomery product is the product of the classes, divided by `2 ^ 16`. -/
theorem residue_montgomeryMul (a b : Int16) :
    residue (Lane.montgomeryMul a b) * 65536 = residue a * residue b := by
  obtain ⟨hv, hb⟩ := toInt_mul_widened a b
  unfold Lane.montgomeryMul residue
  rw [← Int.cast_mul, ← hv]
  refine residue_montgomeryReduce ?_
  rw [hv, Int.natAbs_mul]
  omega

/-- The size of a Montgomery product whose factors are bounded. -/
theorem natAbs_montgomeryMul_le {a b : Int16} {m n : Nat} (ha : a.toInt.natAbs ≤ m) (hb : b.toInt.natAbs ≤ n) :
    (Lane.montgomeryMul a b).toInt.natAbs ≤ (m * n + 109084672) / 65536 := by
  obtain ⟨hv, h⟩ := toInt_mul_widened a b
  have hmn : a.toInt.natAbs * b.toInt.natAbs ≤ m * n := Nat.mul_le_mul ha hb
  have hle : (Lane.montgomeryMul a b).toInt.natAbs ≤ ((a.toInt32 * b.toInt32).toInt.natAbs + 109084672) / 65536 := by
    refine natAbs_montgomeryReduce_le ?_
    rw [hv, Int.natAbs_mul]
    omega
  rw [hv, Int.natAbs_mul] at hle
  omega

/-- Montgomery form is the class times `2 ^ 16`. -/
theorem residue_toMontgomery (c : Int16) : residue (Lane.toMontgomery c) = residue c * 65536 := by
  have hsquare : residue montgomerySquare = 65536 * 65536 := by decide +kernel
  apply eq_of_mul_radix_eq
  rw [Lane.toMontgomery, residue_montgomeryMul, hsquare, mul_assoc]

/-! ## Barrett reduction -/

/-- The quotient of Barrett reduction is the nearest integer: what is left is at most half the modulus. -/
theorem barrettQuotient_near {x t : Int} (hx : -32768 ≤ x ∧ x < 32768) (ht : (20159 * x + 33554432) / 67108864 = t) :
    (-10 ≤ t ∧ t ≤ 10) ∧ -1664 ≤ x - t * 3329 ∧ x - t * 3329 ≤ 1664 := by
  omega

/-- Barrett reduction answers on every word with what the lane computes: a multiple of the modulus is taken off, and at most
half the modulus is left. -/
theorem barrettReduce_spec (a : Int16) :
    barrettReduce a = .ok (Lane.barrettReduce a) ∧ (Lane.barrettReduce a).toInt.natAbs ≤ 1664 ∧
      ∃ t : Int, (Lane.barrettReduce a).toInt = a.toInt - t * 3329 := by
  have hrange : -32768 ≤ a.toInt ∧ a.toInt < 32768 := ⟨a.le_toInt, a.toInt_lt⟩
  have hq : modulus32.toInt = 3329 := rfl
  have hr : barrettReciprocal.toInt = 20159 := rfl
  have hh : (33554432 : Int32).toInt = 33554432 := rfl
  have ha : a.toInt32.toInt = a.toInt := Int16.toInt_toInt32 a
  unfold barrettReduce Lane.barrettReduce
  dsimp only
  -- The four steps in order: each fits its word because the value of the one before is known.
  have f1 : -2147483648 ≤ barrettReciprocal.toInt * a.toInt32.toInt ∧
      barrettReciprocal.toInt * a.toInt32.toInt < 2147483648 := by
    rw [hr, ha]
    omega
  rw [Word.mul32_eq_ok_iff.2 ⟨f1, rfl⟩, ok_bind]
  have v1 := Word.toInt_mul32 f1
  rw [hr, ha] at v1
  have f2 : -2147483648 ≤ (barrettReciprocal * a.toInt32).toInt + (33554432 : Int32).toInt ∧
      (barrettReciprocal * a.toInt32).toInt + (33554432 : Int32).toInt < 2147483648 := by
    rw [v1, hh]
    omega
  rw [Word.add32_eq_ok_iff.2 ⟨f2, rfl⟩, ok_bind]
  have v2 := Word.toInt_add32 f2
  rw [v1, hh] at v2
  have v3 := Word.toInt_shiftRight_twentySix (barrettReciprocal * a.toInt32 + 33554432)
  rw [v2] at v3
  obtain ⟨hsmall, hnear⟩ := barrettQuotient_near hrange v3.symm
  generalize (barrettReciprocal * a.toInt32 + 33554432) >>> 26 = t at v3 hsmall hnear
  have f4 : -2147483648 ≤ t.toInt * modulus32.toInt ∧ t.toInt * modulus32.toInt < 2147483648 := by
    rw [hq]
    omega
  rw [Word.mul32_eq_ok_iff.2 ⟨f4, rfl⟩, ok_bind]
  have v4 := Word.toInt_mul32 f4
  rw [hq] at v4
  have f5 : -2147483648 ≤ a.toInt32.toInt - (t * modulus32).toInt ∧ a.toInt32.toInt - (t * modulus32).toInt < 2147483648 := by
    rw [v4, ha]
    omega
  rw [Word.sub32_eq_ok_iff.2 ⟨f5, rfl⟩, ok_bind]
  have v5 := Word.toInt_sub32 f5
  rw [v4, ha] at v5
  have v6 : (a.toInt32 - t * modulus32).toInt16.toInt = a.toInt - t.toInt * 3329 := by
    rw [Int32.toInt_toInt16, v5]
    exact Word.bmod_of_fits16 (by omega)
  refine ⟨rfl, ?_, t.toInt, v6⟩
  rw [v6]
  omega

/-- Barrett reduction keeps the residue class. -/
theorem residue_barrettReduce (a : Int16) : residue (Lane.barrettReduce a) = residue a := by
  obtain ⟨-, -, t, ht⟩ := barrettReduce_spec a
  have hq : (3329 : ZMod 3329) = 0 := ZMod.natCast_self 3329
  unfold residue
  rw [ht]
  push_cast
  rw [hq, mul_zero, sub_zero]

/-! ## The canonical residue -/

/-- A selection answers if its condition is a bit, and takes the second word on a one. -/
theorem Word.select_eq (r v : Int16) : Word.select r v 0 = .ok r ∧ Word.select r v 1 = .ok v := by
  have h0 : ((0 : UInt16) - 0).toInt16 = 0 := by decide
  have h1 : ((0 : UInt16) - 1).toInt16 = -1 := by decide
  constructor
  · simp only [Word.select, h0, Int16.zero_and, Int16.xor_zero]
    rfl
  · simp only [Word.select, h1, Int16.neg_one_and, ← Int16.xor_assoc, Int16.xor_self, Int16.zero_xor]
    rfl

/-- The sign bit of a word. -/
theorem signBit_eq (c : Int16) : c.toUInt16 >>> 15 = if c.toInt < 0 then 1 else 0 := by
  have hc : c.toInt = (c.toUInt16.toNat : Int).bmod 65536 := BitVec.toInt_eq_toNat_bmod _
  have hlt := c.toUInt16.toNat_lt
  have h15 : (15 : UInt16).toNat % 16 = 15 := by decide
  simp only [Int.bmod_def] at hc
  apply UInt16.toNat.inj
  rw [UInt16.toNat_shiftRight, h15, Nat.shiftRight_eq_div_pow]
  split <;> simp <;> omega

/-- The lift of a signed residue to its unsigned form. -/
theorem liftSign_spec {c : Int16} (h : c.toInt.natAbs < 3329) :
    liftSign c = .ok (if c < 0 then c + 3329 else c) ∧ (if c < 0 then c + 3329 else c).toInt = c.toInt % 3329 := by
  have h3329 : (3329 : Int16).toInt = 3329 := rfl
  have h0 : (0 : Int16).toInt = 0 := rfl
  have hfit : -32768 ≤ c.toInt + (3329 : Int16).toInt ∧ c.toInt + (3329 : Int16).toInt < 32768 := by
    rw [h3329]
    omega
  have hv := Word.toInt_add16 hfit
  rw [h3329] at hv
  have hin : -modulus < c.toInt ∧ c.toInt < modulus := by
    unfold modulus
    omega
  have hneg : c < 0 ↔ c.toInt < 0 := by rw [Int16.lt_iff_toInt_lt, h0]
  unfold liftSign ensure modulus
  unfold modulus at hin
  rw [if_pos hin, ok_bind, Word.add16_eq_ok_iff.2 ⟨hfit, rfl⟩, ok_bind, signBit_eq]
  simp only [hneg]
  by_cases hc : c.toInt < 0
  · rw [if_pos hc, if_pos hc, (Word.select_eq c (c + 3329)).2, ok_bind, hv, if_pos (by omega), ok_bind]
    exact ⟨rfl, by omega⟩
  · rw [if_neg hc, if_neg hc, (Word.select_eq c (c + 3329)).1, ok_bind, if_pos (by omega), ok_bind]
    exact ⟨rfl, by omega⟩

/-- The canonical residue of any word: the scalar routine answers with what the lane computes, the remainder by the modulus. -/
theorem canonical_spec (c : Int16) :
    canonical c = .ok (Lane.canonical c) ∧ (Lane.canonical c).toInt = c.toInt % 3329 := by
  obtain ⟨hok, hsmall, t, ht⟩ := barrettReduce_spec c
  obtain ⟨hlift, hv⟩ := liftSign_spec (c := Lane.barrettReduce c) (by omega)
  unfold canonical Lane.canonical
  rw [hok, ok_bind]
  refine ⟨hlift, hv.trans ?_⟩
  rw [ht]
  omega

end ModuleLattice
