import ModuleLattice.Ring.Vec
import ModuleLattice.Proofs.InnerProduct
import ModuleLattice.Proofs.InverseTransform

/-!
# Operations as entry checks and lanes

An operation that runs a kernel checks its arguments, runs the kernel on a backend and checks what comes out. Where the entry
checks pass, every backend delivers what the lanes deliver and the last check passes; so the operation is its entry checks,
followed by a computation that names no backend. The lemmas here say so operation by operation, for all coefficients and all
multiplication caches; which faults an operation can stop with, and that the backend does not matter, are read off them.
-/

namespace ModuleLattice

/-- Behind a check it is enough to compare computations where the check passes. -/
theorem require_bind_congr {α : Type} {n : Nat} {c : Contract} {xs : Coeffs n} {x y : Except Fault α}
    (h : c.Holds xs → x = y) : (c.require xs >>= fun _ => x) = c.require xs >>= fun _ => y := by
  by_cases hc : c.Holds xs
  · rw [h hc]
  · rw [Contract.require, ensure, if_neg hc, error_bind, error_bind]

/-! ## Transforms and passes -/

/-- The transform is its entry check and the transform in lanes. -/
theorem Poly.ntt_eq (b : Backend) (p : Poly) :
    p.ntt b = (do Contract.transformInput.require p.coeffs; return ⟨Lane.forward p.coeffs⟩) := by
  unfold Poly.ntt
  refine require_bind_congr ?_
  intro hin
  obtain ⟨hok, hsize, -⟩ := forward_spec b ((holds_iff_atMost rfl).1 hin)
  have hout : AtMost 26631 (Lane.forward p.coeffs) := hsize.mono (by decide)
  rw [hok, ok_bind, require_of_atMost rfl hout, ok_bind]

/-- The inverse transform is its entry check and the inverse transform in lanes. -/
theorem NttPoly.nttInverse_eq (b : Backend) (p : NttPoly) :
    p.nttInverse b = (do Contract.inverseInput.require p.coeffs; return ⟨Lane.inverse p.coeffs⟩) := by
  unfold NttPoly.nttInverse
  refine require_bind_congr ?_
  intro hin
  obtain ⟨hok, hsize, -⟩ := inverse_spec b ((holds_iff_atMost rfl).1 hin)
  rw [hok, ok_bind, require_of_atMost rfl hsize, ok_bind]

/-- Reduction answers on all coefficients, on every backend. -/
theorem Coeffs.reduce_eq_lane {n : Nat} (b : Backend) (x : Coeffs n) : x.reduce b = .ok (x.map Lane.canonical) := by
  have hcheck : Contract.reduceOutput.require (x.map Lane.canonical) = .ok () := by
    refine require_of_canonical rfl ?_
    intro i
    have hv := (canonical_spec (x.get i)).2
    rw [get_map]
    omega
  unfold Coeffs.reduce
  rw [b.reduce_eq_lane, ok_bind, hcheck, ok_bind]
  rfl

/-- Montgomery form is below the modulus, whatever the coefficients. -/
theorem atMost_map_toMontgomery {n : Nat} (x : Coeffs n) : AtMost 3328 (x.map Lane.toMontgomery) := by
  intro i hi
  have hsquare : montgomerySquare.toInt.natAbs ≤ 1353 := by decide
  rw [entry_map _ _ hi]
  exact (natAbs_montgomeryMul_le (Word.natAbs_toInt_le _) hsquare).trans (by decide)

/-- Montgomery form is reached from all coefficients, on every backend. -/
theorem Coeffs.toMontgomery_eq_lane {n : Nat} (b : Backend) (x : Coeffs n) :
    x.toMontgomery b = .ok (x.map Lane.toMontgomery) := by
  unfold Coeffs.toMontgomery
  rw [b.toMontgomery_eq_lane, ok_bind, require_of_atMost rfl (atMost_map_toMontgomery x), ok_bind]
  rfl

theorem residues_map_toMontgomery {n : Nat} (x : Coeffs n) {t : Nat} (ht : t < n) :
    residues (x.map Lane.toMontgomery) t = residues x t * 65536 := by
  rw [residues, entry_map _ _ ht, residue_toMontgomery]
  rfl

theorem Poly.reduce_eq_lane (b : Backend) (p : Poly) : p.reduce b = .ok ⟨p.coeffs.map Lane.canonical⟩ := by
  rw [Poly.reduce, Coeffs.reduce_eq_lane, ok_bind]
  rfl

theorem NttPoly.reduce_eq_lane (b : Backend) (x : NttPoly) : x.reduce b = .ok ⟨x.coeffs.map Lane.canonical⟩ := by
  rw [NttPoly.reduce, Coeffs.reduce_eq_lane, ok_bind]
  rfl

theorem NttPoly.toMontgomery_eq_lane (b : Backend) (x : NttPoly) :
    x.toMontgomery b = .ok ⟨x.coeffs.map Lane.toMontgomery⟩ := by
  rw [NttPoly.toMontgomery, Coeffs.toMontgomery_eq_lane, ok_bind]
  rfl

/-! ## Sums and differences -/

/-- A sum answers if no coefficient leaves its word, and it is then the sum of the words. -/
theorem Coeffs.add_eq_ok_iff {n : Nat} {x y z : Coeffs n} : x.add y = .ok z ↔ ∀ t : Fin n,
    (-32768 ≤ (x.get t).toInt + (y.get t).toInt ∧ (x.get t).toInt + (y.get t).toInt < 32768) ∧
      x.get t + y.get t = z.get t := by
  rw [Coeffs.add, ofFnM_eq_ok_iff]
  exact forall_congr' fun t => Word.add16_eq_ok_iff

/-- A difference answers if no coefficient leaves its word, and it is then the difference of the words. -/
theorem Coeffs.sub_eq_ok_iff {n : Nat} {x y z : Coeffs n} : x.sub y = .ok z ↔ ∀ t : Fin n,
    (-32768 ≤ (x.get t).toInt - (y.get t).toInt ∧ (x.get t).toInt - (y.get t).toInt < 32768) ∧
      x.get t - y.get t = z.get t := by
  rw [Coeffs.sub, ofFnM_eq_ok_iff]
  exact forall_congr' fun t => Word.sub16_eq_ok_iff

/-- The integers of a sum that answers are the sums of the integers. -/
theorem Coeffs.integers_add {n : Nat} {x y z : Coeffs n} (h : x.add y = .ok z) {t : Nat} (ht : t < n) :
    integers z t = integers x t + integers y t := by
  obtain ⟨hfit, hz⟩ := Coeffs.add_eq_ok_iff.1 h ⟨t, ht⟩
  rw [← entry_eq_get, ← entry_eq_get] at hfit hz
  rw [← entry_eq_get] at hz
  unfold integers
  rw [← hz]
  exact Word.toInt_add16 hfit

/-- The integers of a difference that answers are the differences of the integers. -/
theorem Coeffs.integers_sub {n : Nat} {x y z : Coeffs n} (h : x.sub y = .ok z) {t : Nat} (ht : t < n) :
    integers z t = integers x t - integers y t := by
  obtain ⟨hfit, hz⟩ := Coeffs.sub_eq_ok_iff.1 h ⟨t, ht⟩
  rw [← entry_eq_get, ← entry_eq_get] at hfit hz
  rw [← entry_eq_get] at hz
  unfold integers
  rw [← hz]
  exact Word.toInt_sub16 hfit

theorem Coeffs.residues_add {n : Nat} {x y z : Coeffs n} (h : x.add y = .ok z) {t : Nat} (ht : t < n) :
    residues z t = residues x t + residues y t := by
  have hv := congrArg (Int.cast : Int → ZMod 3329) (Coeffs.integers_add h ht)
  rwa [Int.cast_add] at hv

theorem Coeffs.residues_sub {n : Nat} {x y z : Coeffs n} (h : x.sub y = .ok z) {t : Nat} (ht : t < n) :
    residues z t = residues x t - residues y t := by
  have hv := congrArg (Int.cast : Int → ZMod 3329) (Coeffs.integers_sub h ht)
  rwa [Int.cast_sub] at hv

/-- Coefficients that are small enough for the word to hold two of them have a sum. -/
theorem Coeffs.add_answers {n m l : Nat} {x y : Coeffs n} (hx : AtMost m x) (hy : AtMost l y) (h : m + l ≤ 32767) :
    ∃ z, x.add y = .ok z := by
  refine ⟨Vector.ofFn fun t => x.get t + y.get t, Coeffs.add_eq_ok_iff.2 ?_⟩
  intro t
  have hxt := hx t t.isLt
  have hyt := hy t t.isLt
  rw [entry_eq_get] at hxt hyt
  rw [get_ofFn]
  exact ⟨by omega, rfl⟩

/-- Coefficients that are small enough for the word to hold two of them have a difference. -/
theorem Coeffs.sub_answers {n m l : Nat} {x y : Coeffs n} (hx : AtMost m x) (hy : AtMost l y) (h : m + l ≤ 32767) :
    ∃ z, x.sub y = .ok z := by
  refine ⟨Vector.ofFn fun t => x.get t - y.get t, Coeffs.sub_eq_ok_iff.2 ?_⟩
  intro t
  have hxt := hx t t.isLt
  have hyt := hy t t.isLt
  rw [entry_eq_get] at hxt hyt
  rw [get_ofFn]
  exact ⟨by omega, rfl⟩

/-! ## Products -/

/-- The cache of a polynomial, on every backend. -/
theorem NttPoly.mulCache_eq_lane (b : Backend) (x : NttPoly) : x.mulCache b = .ok ⟨Lane.mulCache x.coeffs⟩ := by
  unfold NttPoly.mulCache
  rw [Backend.mulCache_eq_lane, ok_bind, require_of_atMost rfl (atMost_mulCache x.coeffs), ok_bind]
  rfl

/-- A polynomial with its cache, on every backend. -/
theorem NttPoly.cached_eq_lane (b : Backend) (x : NttPoly) : x.cached b = .ok ⟨x, ⟨Lane.mulCache x.coeffs⟩⟩ := by
  unfold NttPoly.cached
  rw [NttPoly.mulCache_eq_lane, ok_bind]
  rfl

/-- A single product of factors in range is below its output bound. -/
theorem Factors.InRange.atMost_product {f : Factors} (hf : f.InRange) : AtMost 4992 (Lane.innerProduct [f]) := by
  intro t ht
  obtain ⟨-, hsize, -⟩ := innerProduct_spec (List.forall_mem_singleton.2 hf) (Nat.le_add_left 1 3) ht
  rw [List.length_singleton] at hsize
  exact hsize.trans (by decide)

/-- A product is the checks on its three arguments and the product in lanes, whatever the cache holds. -/
theorem NttPoly.mulCached_eq (b : Backend) (p : NttPoly) (q : CachedNttPoly) :
    p.mulCached b q = (do
      Contract.productLeft.require p.coeffs
      Contract.productRight.require q.poly.coeffs
      Contract.productCache.require q.cache.coeffs
      return ⟨Lane.innerProduct [⟨p.coeffs, q.poly.coeffs, q.cache.coeffs⟩]⟩) := by
  unfold NttPoly.mulCached
  refine require_bind_congr fun hleft => require_bind_congr fun hright => require_bind_congr fun hcache => ?_
  have hf : Factors.InRange ⟨p.coeffs, q.poly.coeffs, q.cache.coeffs⟩ :=
    ⟨(holds_iff_atMost rfl).1 hleft, (holds_iff_atMost rfl).1 hright, (holds_iff_atMost rfl).1 hcache⟩
  rw [Backend.product_eq_lane b hf, ok_bind, require_of_atMost rfl hf.atMost_product, ok_bind]

/-- The product that computes the cache itself is the product with that cache. -/
theorem NttPoly.mul_eq (b : Backend) (p q : NttPoly) : p.mul b q = p.mulCached b ⟨q, ⟨Lane.mulCache q.coeffs⟩⟩ := by
  rw [NttPoly.mul, NttPoly.mulCache_eq_lane, ok_bind]

/-- The checks on one pair of factors pass exactly if the factors are in range. -/
theorem requireFactors_eq_ok_iff {f : Factors} : NttVec.requireFactors f = .ok () ↔ f.InRange := by
  unfold NttVec.requireFactors Contract.require
  rw [ensure_bind_eq_ok_iff, ensure_bind_eq_ok_iff, ensure_eq_ok_iff, holds_iff_atMost rfl, holds_iff_atMost rfl,
    holds_iff_atMost rfl]
  constructor
  · rintro ⟨hleft, hright, hcache⟩
    exact ⟨hleft, hright, hcache⟩
  · rintro ⟨hleft, hright, hcache⟩
    exact ⟨hleft, hright, hcache⟩

/-- The checks on the factors pass exactly if all factors are in range. -/
theorem forM_requireFactors_eq_ok_iff {fs : List Factors} :
    fs.forM NttVec.requireFactors = .ok () ↔ ∀ f ∈ fs, f.InRange := by
  induction fs with
  | nil => exact iff_of_true rfl (List.forall_mem_nil _)
  | cons f fs ih =>
    rw [List.forall_mem_cons, ← ih, ← requireFactors_eq_ok_iff, List.forM]
    cases NttVec.requireFactors f with
    | error e => simp
    | ok u => simp

variable {k : Nat}

/-- A vector with its caches. -/
def NttVec.withCaches (w : NttVec k) : CachedNttVec k := ⟨w.polys.map fun y => ⟨y, ⟨Lane.mulCache y.coeffs⟩⟩⟩

/-- A vector with its caches, on every backend. -/
theorem NttVec.cached_eq_lane (b : Backend) (w : NttVec k) : w.cached b = .ok w.withCaches := by
  have hpolys : (Vector.ofFnM fun i : Fin k => (w.polys.get i).cached b) = Except.ok w.withCaches.polys := by
    refine ofFnM_eq_ok_iff.2 ?_
    intro i
    rw [NttPoly.cached_eq_lane]
    simp [NttVec.withCaches]
  unfold NttVec.cached
  rw [hpolys, ok_bind]
  rfl

/-- An inner product of at most four places is the checks on its factors and the inner product in lanes, whatever the caches
hold. -/
theorem NttVec.innerProductCached_eq (b : Backend) (hk : k ≤ 4) (v : NttVec k) (w : CachedNttVec k) :
    v.innerProductCached b w = (do
      (v.factors w).toList.forM NttVec.requireFactors
      return ⟨Lane.innerProduct (v.factors w).toList⟩) := by
  unfold NttVec.innerProductCached
  dsimp only
  cases hchecks : (v.factors w).toList.forM NttVec.requireFactors with
  | error e => rfl
  | ok u =>
    have hfs := forM_requireFactors_eq_ok_iff.1 hchecks
    have hlen : (v.factors w).toList.length ≤ 4 := by
      rw [Vector.length_toList]
      exact hk
    have hout : AtMost 26631 (Lane.innerProduct (v.factors w).toList) := by
      intro t ht
      have := (innerProduct_spec hfs hlen ht).2.1
      omega
    rw [ok_bind, ok_bind, Backend.innerProduct_eq_lane b hfs hlen, ok_bind, require_of_atMost rfl hout, ok_bind]

/-- The inner product that computes the caches itself is the inner product with those caches. -/
theorem NttVec.innerProduct_eq (b : Backend) (v w : NttVec k) : v.innerProduct b w = v.innerProductCached b w.withCaches := by
  rw [NttVec.innerProduct, NttVec.cached_eq_lane, ok_bind]

end ModuleLattice
