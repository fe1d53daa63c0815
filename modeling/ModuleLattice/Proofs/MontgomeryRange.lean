import ModuleLattice.Proofs.Reduction
import Mathlib.Data.Rat.Cast.Order
import Mathlib.Tactic.Linarith

/-!
# The whole range of Montgomery reduction

Montgomery reduction accepts every 32-bit number from which the multiple of the modulus by any 16-bit word can be taken without
leaving the 32-bit word, and no other. On all of them it is exact: the multiple it takes off makes the low half vanish, the high
half that is left fits a 16-bit word, and the lane routine, which finds the multiple by shifts and a 32-bit product, finds the same
one (`montgomery_exact_on_range`). This is wider than the textbook range, below the modulus times `2 ^ 15`, in which the result is
smaller than the modulus: the inner products need the rest of it for their sums.
-/

namespace ModuleLattice

/-- How Montgomery reduction arrives at a word, and what the word is. -/
structure ReducesExactly (a : Int32) (r : Int16) : Prop where
  /-- The multiple of the modulus and the difference have words, the low half of the difference is zero, and nothing is lost of the
  high half. -/
  steps : ∃ multiple difference : Int32, Word.mul32 (a.toInt16 * modulusInverse).toInt32 modulus32 = .ok multiple ∧
    Word.sub32 a multiple = .ok difference ∧ difference.toInt = r.toInt * 2 ^ 16 ∧ (difference >>> 16).toInt = r.toInt
  /-- The word times `2 ^ 16` is congruent to the number. -/
  congruent : r.toInt * 2 ^ 16 ≡ a.toInt [ZMOD 3329]
  /-- The word is at most half the modulus larger than a `2 ^ 16`th of the number. -/
  size : |(r.toInt : ℚ)| ≤ |(a.toInt : ℚ)| / 2 ^ 16 + 3329 / 2
  /-- In the textbook range the word is smaller than the modulus. -/
  small : |a.toInt| < 3329 * 2 ^ 15 → |r.toInt| < 3329

/-- A number that is not accepted is refused as such, and no other fault arises. -/
theorem montgomeryReduce_eq_error_iff {a : Int32} {e : Fault} :
    montgomeryReduce a = .error e ↔ ¬a.toInt.natAbs ≤ 2038398975 ∧ e = .montgomeryInput := by
  by_cases h : a.toInt.natAbs ≤ 2038398975
  · simp [montgomeryReduce_eq_lane h, h]
  · rw [montgomeryReduce, ensure_bind_eq_error_iff, montgomeryInput_iff]
    simp only [h, false_and, or_false]

/-- A rounded quotient by `2 ^ 16` is bounded by the exact one. -/
theorem natAbs_le_of_rounded {r a : Int} (h : r.natAbs ≤ (a.natAbs + 109084672) / 65536) :
    |(r : ℚ)| ≤ |(a : ℚ)| / 2 ^ 16 + 3329 / 2 := by
  have hle : |r| * 65536 ≤ |a| + 109084672 := by
    rw [Int.abs_eq_natAbs, Int.abs_eq_natAbs]
    omega
  have hcast : |(r : ℚ)| * 65536 ≤ |(a : ℚ)| + 109084672 := by exact_mod_cast hle
  linarith

/-- Montgomery reduction of an accepted number is exact. -/
theorem reducesExactly {a : Int32} (h : a.toInt.natAbs ≤ 2038398975) : ReducesExactly a (Lane.montgomeryReduce a) where
  steps := by
    obtain ⟨hmul, hsub, -⟩ := montgomery_steps h (a.toInt16 * modulusInverse)
    have hexact := Lane.montgomeryReduce_exact h
    refine ⟨_, _, hmul, hsub, hexact, ?_⟩
    rw [Word.toInt_shiftRight_sixteen, hexact]
    exact Int.mul_ediv_cancel _ (by decide)
  congruent := by
    refine (ZMod.intCast_eq_intCast_iff _ _ 3329).1 ?_
    rw [← residue_montgomeryReduce h]
    push_cast
    rfl
  size := natAbs_le_of_rounded (natAbs_montgomeryReduce_le h)
  small hsmall := by
    have hsize := natAbs_montgomeryReduce_le h
    rw [Int.abs_eq_natAbs] at hsmall ⊢
    omega

/-- Montgomery reduction on the whole 32-bit word. It refuses exactly the numbers beyond its limit, `2 ^ 31 - 1 - 3329 * 2 ^ 15` in
either direction, with the fault of its own check and no other. Every number within the limit is reduced exactly, by the checked
routine and by the lane alike. The product of any two 16-bit words has a 32-bit word within the limit. -/
theorem montgomery_exact_on_range :
    montgomeryLimit = 2 ^ 31 - 1 - 3329 * 2 ^ 15 ∧
      (∀ (a : Int32) (e : Fault), montgomeryReduce a = .error e ↔ montgomeryLimit < |a.toInt| ∧ e = .montgomeryInput) ∧
      (∀ a : Int32, |a.toInt| ≤ montgomeryLimit →
        ∃ r, montgomeryReduce a = .ok r ∧ Lane.montgomeryReduce a = r ∧ ReducesExactly a r) ∧
      ∀ x y : Int16, (x.toInt32 * y.toInt32).toInt = x.toInt * y.toInt ∧
        ∃ r, montgomeryReduce (x.toInt32 * y.toInt32) = .ok r ∧ montgomeryMul x y = .ok r := by
  have hlimit (a : Int32) : a.toInt.natAbs ≤ 2038398975 ↔ |a.toInt| ≤ montgomeryLimit := by
    rw [Int.abs_eq_natAbs, montgomeryLimit]
    omega
  refine ⟨rfl, ?_, ?_, ?_⟩
  · intro a e
    rw [montgomeryReduce_eq_error_iff, hlimit, not_le]
  · intro a ha
    have h := (hlimit a).2 ha
    exact ⟨_, montgomeryReduce_eq_lane h, rfl, reducesExactly h⟩
  · intro x y
    obtain ⟨hvalue, hsize⟩ := toInt_mul_widened x y
    have h : (x.toInt32 * y.toInt32).toInt.natAbs ≤ 2038398975 := by
      rw [hvalue, Int.natAbs_mul]
      omega
    exact ⟨hvalue, _, montgomeryReduce_eq_lane h, montgomeryMul_eq_lane x y⟩

/-- The largest number within the limit is reduced exactly in either direction, and the next one is refused; the end of the textbook
range. -/
theorem montgomery_exact_at_limit :
    (montgomeryReduce 2038398975 = .ok 32599 ∧ Lane.montgomeryReduce 2038398975 = 32599 ∧ ReducesExactly 2038398975 32599) ∧
      (montgomeryReduce (-2038398975) = .ok (-32599) ∧ ReducesExactly (-2038398975) (-32599)) ∧
      (montgomeryReduce 109084671 = .ok 3160 ∧ ReducesExactly 109084671 3160) ∧
      montgomeryReduce 2038398976 = .error .montgomeryInput := by
  obtain ⟨-, hrefused, haccepted, -⟩ := montgomery_exact_on_range
  obtain ⟨r, hr, hlane, hexact⟩ := haccepted 2038398975 (by decide)
  obtain ⟨s, hs, hlane', hexact'⟩ := haccepted (-2038398975) (by decide)
  obtain ⟨t, ht, hlane'', hexact''⟩ := haccepted 109084671 (by decide)
  obtain rfl : 32599 = r := hlane
  obtain rfl : -32599 = s := hlane'
  obtain rfl : 3160 = t := hlane''
  exact ⟨⟨hr, rfl, hexact⟩, ⟨hs, hexact'⟩, ⟨ht, hexact''⟩, (hrefused _ _).2 ⟨by decide, rfl⟩⟩

end ModuleLattice
