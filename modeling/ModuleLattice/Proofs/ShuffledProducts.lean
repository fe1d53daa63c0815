import ModuleLattice.Proofs.InnerProduct

/-!
# Products in vectors against products on scalars

The vector kernels sort the quadruples of a step by place, multiply and add lane by lane with words that wrap, and mix the results
back. They never fail, and on all operands they compute what the lanes compute one place at a time, so the widths agree. The scalar
kernels check every sum: they answer exactly where no sum leaves the word and every complete one is accepted by Montgomery
reduction, for any number of factors, and then the answer is the same (`shuffled_products`).
-/

namespace ModuleLattice

/-- The vector kernels of all widths compute the same products as the scalar kernels, for coefficients and caches of any size. The
multiplication cache is the same on every backend. An inner product of any number of factors, and a single product, have one
result at all widths. The scalar inner product answers exactly if at every place each product and each sum of the first products
has a 32-bit word and Montgomery reduction accepts the complete sum, and then with that result; the scalar product answers
exactly if the reduction accepts all products, and then with that result. -/
theorem shuffled_products :
    (∀ x : Coeffs 256, ∃ cache, ∀ b : Backend, b.mulCache x = .ok cache) ∧
      (∀ fs : List Factors, ∃ y, (∀ w : LaneWidth, (Backend.simd w).innerProduct fs = .ok y) ∧
        ∀ z, Backend.reference.innerProduct fs = .ok z ↔
          (∀ t : Fin 256, SumsFit 0 fs t ∧ (exactSum fs t).natAbs ≤ 2038398975) ∧ y = z) ∧
      ∀ f : Factors, ∃ y, (∀ w : LaneWidth, (Backend.simd w).product f = .ok y) ∧
        ∀ z, Backend.reference.product f = .ok z ↔ (∀ t : Fin 256, (f.values t).natAbs ≤ 2038398975) ∧ y = z := by
  refine ⟨fun x => ⟨Lane.mulCache x, fun b => b.mulCache_eq_lane x⟩, fun fs => ?_, fun f => ?_⟩
  · have hwide (w : LaneWidth) : (Backend.simd w).innerProduct fs = .ok (Lane.innerProduct fs) :=
      congrArg Except.ok (Wide.innerProduct_eq_lane w fs)
    exact ⟨Lane.innerProduct fs, hwide, fun _ => Scalar.innerProduct_eq_ok_iff⟩
  · have hwide (w : LaneWidth) : (Backend.simd w).product f = .ok (Lane.innerProduct [f]) :=
      congrArg Except.ok (Wide.innerProduct_eq_lane w [f])
    exact ⟨Lane.innerProduct [f], hwide, fun _ => Scalar.product_eq_ok_iff⟩

/-- The factors with the largest coefficients in range. -/
def Factors.largest : Factors := ⟨Vector.replicate 256 4095, Vector.replicate 256 26631, Vector.replicate 128 3328⟩

theorem Factors.values_largest (t : Fin 256) : largest.values t = if t.val % 2 = 0 then 122682105 else 218107890 := by
  have hentry {n : Nat} (c : Int16) {i : Nat} (hi : i < n) : integers (Vector.replicate n c) i = c.toInt := by
    rw [integers, entry_eq_getElem _ hi, Vector.getElem_replicate]
  unfold values pairProduct largest
  dsimp only
  rw [hentry _ (by omega), hentry _ (by omega), hentry _ (by omega), hentry _ (by omega), hentry _ (by omega)]
  rfl

theorem exactSum_replicate (n : Nat) (f : Factors) (t : Nat) : exactSum (List.replicate n f) t = n * f.values t := by
  rw [exactSum, List.map_replicate, List.sum_replicate, nsmul_eq_mul]

/-- Of the largest factors in range the scalar kernels sum nine and refuse ten. The vector kernels answer on both. -/
theorem shuffled_products_largest :
    (∃ y, Backend.reference.innerProduct (List.replicate 9 Factors.largest) = .ok y ∧
        ∀ w : LaneWidth, (Backend.simd w).innerProduct (List.replicate 9 Factors.largest) = .ok y) ∧
      (∀ z, Backend.reference.innerProduct (List.replicate 10 Factors.largest) ≠ .ok z) ∧
      ∃ y, ∀ w : LaneWidth, (Backend.simd w).innerProduct (List.replicate 10 Factors.largest) = .ok y := by
  obtain ⟨y, hwide, hscalar⟩ := shuffled_products.2.1 (List.replicate 9 Factors.largest)
  obtain ⟨y', hwide', hscalar'⟩ := shuffled_products.2.1 (List.replicate 10 Factors.largest)
  have hvalue (t : Fin 256) : 0 ≤ Factors.largest.values t ∧ Factors.largest.values t ≤ 218107890 := by
    rw [Factors.values_largest]
    split <;> decide
  refine ⟨⟨y, (hscalar y).2 ⟨fun t => ?_, rfl⟩, hwide⟩, fun z hz => ?_, y', hwide'⟩
  · have hlimits := hvalue t
    refine ⟨⟨fun f hf => ?_, fun n => ?_⟩, ?_⟩
    · obtain rfl := List.eq_of_mem_replicate hf
      exact fits32_of_accepted (by omega)
    · rw [List.take_replicate, exactSum_replicate]
      have hn : min n 9 ≤ 9 := Nat.min_le_right n 9
      have hnonneg : 0 ≤ ((min n 9 : Nat) : Int) * Factors.largest.values t := mul_nonneg (Int.natCast_nonneg _) hlimits.1
      have hle : ((min n 9 : Nat) : Int) * Factors.largest.values t ≤ 9 * 218107890 :=
        mul_le_mul (by exact_mod_cast hn) hlimits.2 hlimits.1 (by decide)
      exact fits32_of_accepted (by omega)
    · rw [exactSum_replicate]
      push_cast
      omega
  · have hsize := (((hscalar' z).1 hz).1 ⟨1, by decide⟩).2
    rw [exactSum_replicate, Factors.values_largest] at hsize
    exact absurd hsize (by decide)

end ModuleLattice
