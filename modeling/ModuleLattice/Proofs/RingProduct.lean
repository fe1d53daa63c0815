import ModuleLattice.Proofs.RoundTrip

/-!
# Multiplication through the transform

A product in the transformed domain multiplies remainders, so it is the transform of the schoolbook product, divided by the
radix of Montgomery reduction; the inverse transform puts the radix back. `mulThroughNtt_eq_negacyclic` says this of two
polynomials and `innerProduct_eq_sum` of two vectors, where the products are summed before the one reduction each coefficient
sees. Both hold on every backend, and nothing overflows on the way: what the forward transform delivers is small enough for
the products, and what the products deliver small enough for the inverse transform.
-/

namespace ModuleLattice

open Finset

/-! ## Products of remainders -/

/-- The class of a product of pairs is the product of the classes. -/
theorem cast_values (f : Factors) (t : Nat) :
    (f.values t : ZMod 3329) = pairProduct (residues f.left) (residues f.right) (residues f.cache) t := by
  unfold Factors.values pairProduct residues residue integers
  dsimp only
  split
  · push_cast
    rfl
  · push_cast
    rfl

/-- The factors of a product with a right operand that brings its own cache. -/
def NttPoly.factors (x y : NttPoly) : Factors := ⟨x.coeffs, y.coeffs, Lane.mulCache y.coeffs⟩

/-- The two classes of a product of pairs: its coefficients modulo `X ^ 2 - z`, with `z` the root of the pair. -/
theorem cast_values_pair (x y : NttPoly) {j : Nat} (hj : j < 128) :
    ((x.factors y).values (2 * j) : ZMod 3329) = residues x.coeffs (2 * j) * residues y.coeffs (2 * j) +
        residues x.coeffs (2 * j + 1) * (residues y.coeffs (2 * j + 1) * blockRoot 7 j) ∧
      ((x.factors y).values (2 * j + 1) : ZMod 3329) = residues x.coeffs (2 * j) * residues y.coeffs (2 * j + 1) +
        residues x.coeffs (2 * j + 1) * residues y.coeffs (2 * j) := by
  have heven : 2 * j % 2 = 0 ∧ 2 * j / 2 = j := by omega
  have hodd : ¬(2 * j + 1) % 2 = 0 ∧ (2 * j + 1) / 2 = j := by omega
  rw [cast_values, cast_values, pairProduct, pairProduct, NttPoly.factors]
  dsimp only
  rw [if_pos heven.1, heven.2, if_neg hodd.1, hodd.2, residues_mulCache _ hj]
  exact ⟨rfl, rfl⟩

/-- Products of remainders are the remainders of the product. -/
theorem values_of_represents {x y : NttPoly} {p q : Nat → ZMod 3329} (hx : Represents 7 p x.coeffs)
    (hy : Represents 7 q y.coeffs) {j m : Nat} (hj : j < 128) (hm : m < 2) :
    ((x.factors y).values (2 * j + m) : ZMod 3329) = remainder 7 (negacyclic p q) j m := by
  have hplace : j * 2 ^ (8 - 7) = 2 * j := Nat.mul_comm j 2
  have hxj := fun m hm => hplace ▸ hx j hj m hm
  have hyj := fun m hm => hplace ▸ hy j hj m hm
  obtain ⟨hzero, hone⟩ := remainder_negacyclic p q j
  obtain ⟨heven, hodd⟩ := cast_values_pair x y hj
  have hdigit : m = 0 ∨ m = 1 := by omega
  rcases hdigit with rfl | rfl
  · rw [hzero, ← hxj 0 hm, ← hxj 1 (by decide), ← hyj 0 hm, ← hyj 1 (by decide)]
    exact heven
  · rw [hone, ← hxj 0 (by decide), ← hxj 1 hm, ← hyj 0 (by decide), ← hyj 1 hm]
    exact hodd

/-- The operands of a product, from the ranges its checks demand. -/
theorem NttPoly.factors_inRange {x y : NttPoly} (hx : AtMost 4095 x.coeffs) (hy : AtMost 26631 y.coeffs) :
    (x.factors y).InRange :=
  ⟨hx, hy, atMost_mulCache y.coeffs⟩

/-- A single product of operands in range: it is small, and its classes are those of the products of pairs, divided by
`2 ^ 16`. -/
theorem product_spec {x y : NttPoly} (hx : AtMost 4095 x.coeffs) (hy : AtMost 26631 y.coeffs) :
    AtMost 4992 (Lane.innerProduct [x.factors y]) ∧
      ∀ t < 256, residues (Lane.innerProduct [x.factors y]) t * 65536 = ((x.factors y).values t : ZMod 3329) := by
  have hf := NttPoly.factors_inRange hx hy
  refine ⟨hf.atMost_product, ?_⟩
  intro t ht
  obtain ⟨-, -, hclass⟩ := innerProduct_spec (List.forall_mem_singleton.2 hf) (Nat.le_add_left 1 3) ht
  rw [hclass]
  simp

/-! ## The operations on transformed polynomials and vectors -/

/-- A product of operands in range, on every backend. -/
theorem NttPoly.mulCached_eq_lane (b : Backend) {x y : NttPoly} (hx : AtMost 4095 x.coeffs) (hy : AtMost 26631 y.coeffs) :
    x.mulCached b ⟨y, ⟨Lane.mulCache y.coeffs⟩⟩ = .ok ⟨Lane.innerProduct [x.factors y]⟩ := by
  rw [NttPoly.mulCached_eq, require_of_atMost rfl hx, ok_bind, require_of_atMost rfl hy, ok_bind,
    require_of_atMost rfl (atMost_mulCache y.coeffs), ok_bind]
  rfl

/-- The product that computes the cache itself is the product with the cache at hand. -/
theorem NttPoly.mul_eq_lane (b : Backend) {x y : NttPoly} (hx : AtMost 4095 x.coeffs) (hy : AtMost 26631 y.coeffs) :
    x.mul b y = .ok ⟨Lane.innerProduct [x.factors y]⟩ := by
  rw [NttPoly.mul_eq]
  exact NttPoly.mulCached_eq_lane b hx hy

section

variable {k : Nat}

/-- The factors of an inner product, place by place. -/
def NttVec.factorList (v w : NttVec k) : List Factors := List.ofFn fun i : Fin k => (v.polys.get i).factors (w.polys.get i)

/-- The factors the inner product works on. -/
theorem NttVec.factors_withCaches (v w : NttVec k) : (v.factors w.withCaches).toList = v.factorList w := by
  unfold NttVec.factors NttVec.factorList NttVec.withCaches NttPoly.factors
  rw [Vector.toList_ofFn]
  simp

/-- The operands of an inner product, from the ranges its checks demand. -/
theorem NttVec.factorList_inRange {v w : NttVec k} (hv : ∀ i : Fin k, AtMost 4095 (v.polys.get i).coeffs)
    (hw : ∀ i : Fin k, AtMost 26631 (w.polys.get i).coeffs) : ∀ f ∈ v.factorList w, f.InRange := by
  intro f hf
  obtain ⟨i, rfl⟩ := List.mem_ofFn.1 hf
  exact NttPoly.factors_inRange (hv i) (hw i)

/-- An inner product of at most four pairs of operands in range, on every backend. -/
theorem NttVec.innerProductCached_eq_lane (b : Backend) (hk : k ≤ 4) {v w : NttVec k}
    (hv : ∀ i : Fin k, AtMost 4095 (v.polys.get i).coeffs) (hw : ∀ i : Fin k, AtMost 26631 (w.polys.get i).coeffs) :
    v.innerProductCached b w.withCaches = .ok ⟨Lane.innerProduct (v.factorList w)⟩ := by
  have hchecks := forM_requireFactors_eq_ok_iff.2 (NttVec.factorList_inRange hv hw)
  rw [NttVec.innerProductCached_eq b hk, NttVec.factors_withCaches, hchecks, ok_bind]
  rfl

/-- The inner product that computes the caches itself is the inner product with the caches at hand. -/
theorem NttVec.innerProduct_eq_lane (b : Backend) (hk : k ≤ 4) {v w : NttVec k}
    (hv : ∀ i : Fin k, AtMost 4095 (v.polys.get i).coeffs) (hw : ∀ i : Fin k, AtMost 26631 (w.polys.get i).coeffs) :
    v.innerProduct b w = .ok ⟨Lane.innerProduct (v.factorList w)⟩ := by
  rw [NttVec.innerProduct_eq]
  exact NttVec.innerProductCached_eq_lane b hk hv hw

end

/-! ## Canonical coefficients -/

/-- The canonical representative of a class is a class representative. -/
theorem residue_canonical (c : Int16) : residue (Lane.canonical c) = residue c := by
  have hv := (canonical_spec c).2
  unfold residue
  rw [hv]
  exact ZMod.intCast_mod c.toInt 3329

/-- Reduced coefficients are below the modulus. -/
theorem atMost_map_canonical (x : Coeffs 256) : AtMost 3328 (x.map Lane.canonical) := by
  intro i hi
  have hv := (canonical_spec (entry x i)).2
  rw [entry_map _ _ hi]
  omega

/-- Reduction leaves the residue classes alone. -/
theorem residues_map_canonical {n : Nat} (x : Coeffs n) {t : Nat} (ht : t < n) :
    residues (x.map Lane.canonical) t = residues x t := by
  rw [residues, entry_map _ _ ht, residue_canonical]
  rfl

/-- Reduced coefficients represent what the coefficients did. -/
theorem represents_map_canonical_iff {q : Nat → ZMod 3329} {x : Coeffs 256} :
    Represents 7 q (x.map Lane.canonical) ↔ Represents 7 q x := by
  refine forall₂_congr fun j hj => forall₂_congr fun m hm => ?_
  rw [residues_map_canonical x (by omega)]

/-- From a product in the transformed domain back to coefficients: if an array holds the remainders of a polynomial, divided by
`2 ^ 16`, then the inverse transform gives the classes of the polynomial. -/
theorem residues_inverse_of_remainders {x : Coeffs 256} {g : Nat → ZMod 3329} (hx : AtMost 16383 x)
    (hg : ∀ j < 128, ∀ m < 2, residues x (2 * j + m) * 65536 = remainder 7 g j m) {t : Nat} (ht : t < 256) :
    residues (Lane.inverse x) t = g t := by
  have hrep : Represents 7 (fun i => 169 * g i) x := by
    intro j hj m hm
    have hplace : j * 2 ^ (8 - 7) = 2 * j := Nat.mul_comm j 2
    rw [hplace, remainder_smul, ← hg j hj m hm, mul_left_comm, mul_comm 169, radix_mul_inverse, mul_one]
  have hback := ((inverse_spec .reference hx).2.2 _).1 hrep t ht
  rwa [← mul_assoc, radix_mul_inverse, one_mul] at hback

/-- Behind the inverse transform, a reduction gives the polynomial, the representatives in `[0, 3329)`. -/
theorem nttInverse_reduce {z : NttPoly} {g : Nat → Int} (hz : AtMost 16383 z.coeffs)
    (hg : ∀ j < 128, ∀ m < 2, residues z.coeffs (2 * j + m) * 65536 = remainder 7 (fun i => (g i : ZMod 3329)) j m) :
    ∃ c : Poly, (∀ b : Backend, (do (← z.nttInverse b).reduce b) = Except.ok c) ∧
      ∀ t : Fin 256, (c.coeffs.get t).toInt = g t % 3329 := by
  refine ⟨⟨(Lane.inverse z.coeffs).map Lane.canonical⟩, ?_, ?_⟩
  · intro b
    rw [NttPoly.nttInverse_eq_lane b hz, ok_bind, Poly.reduce_eq_lane]
  · intro t
    have hclass := residues_inverse_of_remainders hz hg t.isLt
    rw [residues, residue, entry_eq_get] at hclass
    have hv := (canonical_spec ((Lane.inverse z.coeffs).get t)).2
    rw [get_map]
    exact hv.trans ((ZMod.intCast_eq_intCast_iff' _ _ _).1 hclass)

/-! ## The product of two polynomials -/

/-- The product of two polynomials through the transform. The left transform is reduced before the product; the right one is
as the transform delivers it. -/
def Poly.mulThroughNtt (b : Backend) (product : NttPoly → NttPoly → Except Fault NttPoly) (p q : Poly) :
    Except Fault Poly := do
  let x ← (← p.ntt b).reduce b
  let y ← q.ntt b
  let z ← product x y
  (← z.nttInverse b).reduce b

/-- The product of two transformed polynomials in two steps: the cache of the right one, and the product with it at hand. -/
def NttPoly.mulByCached (b : Backend) (x y : NttPoly) : Except Fault NttPoly := do
  let y ← y.cached b
  x.mulCached b y

/-- The classes of a schoolbook product. -/
theorem cast_negacyclic (p q : Poly) :
    (fun t => ((negacyclic (integers p.coeffs) (integers q.coeffs) t : Int) : ZMod 3329)) =
      negacyclic (residues p.coeffs) (residues q.coeffs) := by
  funext t
  exact map_negacyclic (Int.castRingHom (ZMod 3329)) _ _ t

/-- The classes of a sum of schoolbook products. -/
theorem cast_sum_negacyclic {ι : Type} [Fintype ι] (p q : ι → Poly) :
    (fun t => ((∑ i, negacyclic (integers (p i).coeffs) (integers (q i).coeffs) t : Int) : ZMod 3329)) =
      fun t => ∑ i, negacyclic (residues (p i).coeffs) (residues (q i).coeffs) t := by
  funext t
  rw [Int.cast_sum]
  refine sum_congr rfl ?_
  intro i _
  exact congrFun (cast_negacyclic (p i) (q i)) t

/-- The right operand of a product: the transform as it is delivered. -/
def Poly.transformed (p : Poly) : NttPoly := ⟨Lane.forward p.coeffs⟩

/-- The left operand of a product: the transform with canonical coefficients. -/
def Poly.reducedTransform (p : Poly) : NttPoly := ⟨(Lane.forward p.coeffs).map Lane.canonical⟩

/-- The transform of a polynomial is in range for a right operand, and it holds the remainders. -/
theorem Poly.transformed_spec {p : Poly} (hp : AtMost 3328 p.coeffs) :
    (∀ b : Backend, p.ntt b = .ok p.transformed) ∧ AtMost 26631 p.transformed.coeffs ∧
      Represents 7 (residues p.coeffs) p.transformed.coeffs := by
  obtain ⟨-, hsize, hrep⟩ := forward_spec .reference hp
  exact ⟨fun b => Poly.ntt_eq_lane b hp, hsize.mono (by decide), hrep⟩

/-- The reduced transform of a polynomial is in range for a left operand, and it holds the remainders. -/
theorem Poly.reducedTransform_spec {p : Poly} (hp : AtMost 3328 p.coeffs) :
    (∀ b : Backend, p.transformed.reduce b = .ok p.reducedTransform) ∧ AtMost 4095 p.reducedTransform.coeffs ∧
      Represents 7 (residues p.coeffs) p.reducedTransform.coeffs := by
  obtain ⟨-, -, hrep⟩ := forward_spec .reference hp
  exact ⟨fun b => NttPoly.reduce_eq_lane b _, (atMost_map_canonical _).mono (by decide), represents_map_canonical_iff.2 hrep⟩

/-- Multiplication through the transform is multiplication modulo `X ^ 256 + 1`. For polynomials with coefficients below the
modulus, no step of the product fails, whether it computes the multiplication cache itself or finds it at hand, and on every
backend the result has the representatives in `[0, 3329)` of the coefficients of the schoolbook product over the integers. -/
theorem mulThroughNtt_eq_negacyclic (p q : Poly) (hp : ∀ i : Fin 256, (p.coeffs.get i).toInt.natAbs < 3329)
    (hq : ∀ i : Fin 256, (q.coeffs.get i).toInt.natAbs < 3329) :
    ∃ c : Poly, (∀ b : Backend, Poly.mulThroughNtt b (NttPoly.mul b) p q = .ok c) ∧
      (∀ b : Backend, Poly.mulThroughNtt b (NttPoly.mulByCached b) p q = .ok c) ∧
      ∀ t : Fin 256, (c.coeffs.get t).toInt = negacyclic (integers p.coeffs) (integers q.coeffs) t % 3329 := by
  obtain ⟨hpok, -, -⟩ := Poly.transformed_spec (atMost_iff.2 hp)
  obtain ⟨hxok, hx, hxrep⟩ := Poly.reducedTransform_spec (atMost_iff.2 hp)
  obtain ⟨hyok, hy, hyrep⟩ := Poly.transformed_spec (atMost_iff.2 hq)
  obtain ⟨hsize, hclass⟩ := product_spec hx hy
  have hrep : ∀ j < 128, ∀ m < 2, residues (Lane.innerProduct [p.reducedTransform.factors q.transformed]) (2 * j + m) * 65536 =
      remainder 7 (fun t => ((negacyclic (integers p.coeffs) (integers q.coeffs) t : Int) : ZMod 3329)) j m := by
    intro j hj m hm
    rw [hclass _ (by omega), values_of_represents hxrep hyrep hj hm, cast_negacyclic]
  obtain ⟨c, hc, hv⟩ := nttInverse_reduce (z := ⟨Lane.innerProduct [p.reducedTransform.factors q.transformed]⟩)
    (hsize.mono (by decide)) hrep
  refine ⟨c, ?_, ?_, hv⟩
  · intro b
    unfold Poly.mulThroughNtt
    rw [hpok, ok_bind, hxok, ok_bind, hyok, ok_bind, NttPoly.mul_eq_lane b hx hy, ok_bind]
    exact hc b
  · intro b
    unfold Poly.mulThroughNtt NttPoly.mulByCached
    rw [hpok, ok_bind, hxok, ok_bind, hyok, ok_bind, NttPoly.cached_eq_lane, ok_bind, NttPoly.mulCached_eq_lane b hx hy,
      ok_bind]
    exact hc b

/-- Multiplication through the transform of polynomials of extreme coefficients. -/
theorem mulThroughNtt_extreme :
    (∀ i : Fin 256, (Poly.extreme.coeffs.get i).toInt.natAbs < 3329) ∧ ∃ c : Poly,
      (∀ b : Backend, Poly.mulThroughNtt b (NttPoly.mul b) Poly.extreme Poly.extreme = .ok c) ∧
      (∀ b : Backend, Poly.mulThroughNtt b (NttPoly.mulByCached b) Poly.extreme Poly.extreme = .ok c) ∧
      ∀ t : Fin 256, (c.coeffs.get t).toInt =
        negacyclic (integers Poly.extreme.coeffs) (integers Poly.extreme.coeffs) t % 3329 :=
  ⟨Poly.extreme_accepted, mulThroughNtt_eq_negacyclic Poly.extreme Poly.extreme Poly.extreme_accepted Poly.extreme_accepted⟩

/-! ## The inner product of two vectors -/

section

variable {k : Nat}

/-- The inner product of two vectors through the transform. The left transform is reduced before the product; the right one
is as the transform delivers it. -/
def PolyVec.innerProductThroughNtt (b : Backend) (v w : PolyVec k) : Except Fault Poly := do
  let x ← (← v.ntt b).reduce b
  let y ← w.ntt b
  let z ← x.innerProduct b y
  (← z.nttInverse b).reduce b

/-- The inner product of at most four products of operands in range: every coefficient is the Montgomery reduction of the
exact sum, below `2 ^ 14`, and its class is the class of the sum divided by `2 ^ 16`. -/
theorem NttVec.factorList_spec (hk : k ≤ 4) {v w : NttVec k} (hv : ∀ i : Fin k, AtMost 4095 (v.polys.get i).coeffs)
    (hw : ∀ i : Fin k, AtMost 26631 (w.polys.get i).coeffs) {t : Nat} (ht : t < 256) :
    (∃ s : Int32, s.toInt = ∑ i : Fin k, ((v.polys.get i).factors (w.polys.get i)).values t ∧
        montgomeryReduce s = .ok (entry (Lane.innerProduct (v.factorList w)) t)) ∧
      (entry (Lane.innerProduct (v.factorList w)) t).toInt.natAbs ≤ 16383 ∧
      residues (Lane.innerProduct (v.factorList w)) t * 65536 =
        ∑ i : Fin k, (((v.polys.get i).factors (w.polys.get i)).values t : ZMod 3329) := by
  have hlen : (v.factorList w).length = k := List.length_ofFn
  have hsum : exactSum (v.factorList w) t = ∑ i : Fin k, ((v.polys.get i).factors (w.polys.get i)).values t := by
    rw [NttVec.factorList, exactSum, List.map_ofFn, List.sum_ofFn]
    rfl
  obtain ⟨hreduce, hsize, hclass⟩ := innerProduct_spec (NttVec.factorList_inRange hv hw) (hlen.trans_le hk) ht
  rw [hsum] at hreduce hclass
  rw [hlen] at hsize
  refine ⟨hreduce, by omega, ?_⟩
  rw [hclass, Int.cast_sum]

/-- The inner product of operands that hold remainders holds the remainders of the sum of the products, divided by `2 ^ 16`. -/
theorem NttVec.remainders_of_represents (hk : k ≤ 4) {v w : NttVec k} (hv : ∀ i : Fin k, AtMost 4095 (v.polys.get i).coeffs)
    (hw : ∀ i : Fin k, AtMost 26631 (w.polys.get i).coeffs) {p q : Fin k → Nat → ZMod 3329}
    (hp : ∀ i, Represents 7 (p i) (v.polys.get i).coeffs) (hq : ∀ i, Represents 7 (q i) (w.polys.get i).coeffs) {j m : Nat}
    (hj : j < 128) (hm : m < 2) :
    residues (Lane.innerProduct (v.factorList w)) (2 * j + m) * 65536 =
      remainder 7 (fun t => ∑ i : Fin k, negacyclic (p i) (q i) t) j m := by
  rw [(NttVec.factorList_spec hk hv hw (by omega)).2.2, remainder_sum]
  refine sum_congr rfl ?_
  intro i _
  exact values_of_represents (hp i) (hq i) hj hm

/-- The transform of a vector as it is delivered. -/
def PolyVec.transformed (v : PolyVec k) : NttVec k := ⟨v.polys.map Poly.transformed⟩

/-- The transform of a vector with canonical coefficients. -/
def PolyVec.reducedTransform (v : PolyVec k) : NttVec k := ⟨v.polys.map Poly.reducedTransform⟩

/-- The transform of a vector with coefficients below the modulus is in range for a right operand, and it holds the
remainders. -/
theorem PolyVec.transformed_spec {v : PolyVec k} (hv : ∀ i : Fin k, AtMost 3328 (v.polys.get i).coeffs) :
    (∀ b : Backend, v.ntt b = .ok v.transformed) ∧ (∀ i : Fin k, AtMost 26631 (v.transformed.polys.get i).coeffs) ∧
      ∀ i : Fin k, Represents 7 (residues (v.polys.get i).coeffs) (v.transformed.polys.get i).coeffs := by
  have hget : ∀ i : Fin k, v.transformed.polys.get i = (v.polys.get i).transformed := get_map _ v.polys
  refine ⟨?_, fun i => hget i ▸ (Poly.transformed_spec (hv i)).2.1, fun i => hget i ▸ (Poly.transformed_spec (hv i)).2.2⟩
  intro b
  have hloop : (Vector.ofFnM fun i : Fin k => (v.polys.get i).ntt b) = Except.ok v.transformed.polys := by
    refine ofFnM_eq_ok_iff.2 ?_
    intro i
    rw [(Poly.transformed_spec (hv i)).1, hget]
  rw [PolyVec.ntt, hloop, ok_bind]
  rfl

/-- The reduced transform of a vector is in range for a left operand, and it holds the remainders. -/
theorem PolyVec.reducedTransform_spec {v : PolyVec k} (hv : ∀ i : Fin k, AtMost 3328 (v.polys.get i).coeffs) :
    (∀ b : Backend, v.transformed.reduce b = .ok v.reducedTransform) ∧
      (∀ i : Fin k, AtMost 4095 (v.reducedTransform.polys.get i).coeffs) ∧
      ∀ i : Fin k, Represents 7 (residues (v.polys.get i).coeffs) (v.reducedTransform.polys.get i).coeffs := by
  have hget : ∀ i : Fin k, v.reducedTransform.polys.get i = (v.polys.get i).reducedTransform := get_map _ v.polys
  refine ⟨?_, fun i => hget i ▸ (Poly.reducedTransform_spec (hv i)).2.1,
    fun i => hget i ▸ (Poly.reducedTransform_spec (hv i)).2.2⟩
  intro b
  have hloop : (Vector.ofFnM fun i : Fin k => (v.transformed.polys.get i).reduce b) = Except.ok v.reducedTransform.polys := by
    refine ofFnM_eq_ok_iff.2 ?_
    intro i
    rw [PolyVec.transformed, get_map, (Poly.reducedTransform_spec (hv i)).1, hget]
  rw [NttVec.reduce, hloop, ok_bind]
  rfl

/-- The inner product through the transform is the sum of the products modulo `X ^ 256 + 1`. -/
theorem innerProductThroughNtt_eq_sum (hk : k ≤ 4) {v w : PolyVec k} (hv : ∀ i : Fin k, AtMost 3328 (v.polys.get i).coeffs)
    (hw : ∀ i : Fin k, AtMost 3328 (w.polys.get i).coeffs) :
    ∃ c : Poly, (∀ b : Backend, v.innerProductThroughNtt b w = .ok c) ∧ ∀ t : Fin 256, (c.coeffs.get t).toInt =
      (∑ i : Fin k, negacyclic (integers (v.polys.get i).coeffs) (integers (w.polys.get i).coeffs) t) % 3329 := by
  obtain ⟨hvok, -, -⟩ := PolyVec.transformed_spec hv
  obtain ⟨hxok, hx, hxrep⟩ := PolyVec.reducedTransform_spec hv
  obtain ⟨hyok, hy, hyrep⟩ := PolyVec.transformed_spec hw
  have hsize : AtMost 16383 (Lane.innerProduct (v.reducedTransform.factorList w.transformed)) :=
    fun t ht => (NttVec.factorList_spec hk hx hy ht).2.1
  have hrep : ∀ j < 128, ∀ m < 2,
      residues (Lane.innerProduct (v.reducedTransform.factorList w.transformed)) (2 * j + m) * 65536 =
        remainder 7 (fun t => ((∑ i : Fin k, negacyclic (integers (v.polys.get i).coeffs)
          (integers (w.polys.get i).coeffs) t : Int) : ZMod 3329)) j m := by
    intro j hj m hm
    rw [cast_sum_negacyclic]
    exact NttVec.remainders_of_represents hk hx hy hxrep hyrep hj hm
  obtain ⟨c, hc, hvalue⟩ := nttInverse_reduce (z := ⟨Lane.innerProduct (v.reducedTransform.factorList w.transformed)⟩)
    hsize hrep
  refine ⟨c, ?_, hvalue⟩
  intro b
  unfold PolyVec.innerProductThroughNtt
  rw [hvok, ok_bind, hxok, ok_bind, hyok, ok_bind, NttVec.innerProduct_eq_lane b hk hx hy, ok_bind]
  exact hc b

/-- The inner product in the transformed domain sums exactly, and it is the inner product of the ring. Of at most four pairs
of transformed polynomials in the ranges the operands may have, every backend computes the same inner product, with the
caches at hand or not; each coefficient is the Montgomery reduction of the exact integer sum of the products of pairs, its
class is the sum of the classes of the single products, and it stays below `2 ^ 14`. So for vectors of polynomials with
coefficients below the modulus, the inner product through the transform has the canonical coefficients of the sum of the
schoolbook products. -/
theorem innerProduct_eq_sum (hk : k ≤ 4) :
    (∀ v w : NttVec k, (∀ (i : Fin k) (t : Fin 256), ((v.polys.get i).coeffs.get t).toInt.natAbs < 4096) →
      (∀ (i : Fin k) (t : Fin 256), ((w.polys.get i).coeffs.get t).toInt.natAbs < 26632) →
      ∃ (cached : CachedNttVec k) (r : NttPoly) (products : Vector NttPoly k), (∀ b : Backend, w.cached b = .ok cached) ∧
        (∀ b : Backend, v.innerProduct b w = .ok r) ∧ (∀ b : Backend, v.innerProductCached b cached = .ok r) ∧
        (∀ (b : Backend) (i : Fin k), (v.polys.get i).mul b (w.polys.get i) = .ok (products.get i)) ∧
        ∀ t : Fin 256,
          (∃ s : Int32, s.toInt = ∑ i : Fin k, pairProduct (integers (v.polys.get i).coeffs) (integers (w.polys.get i).coeffs)
            (integers (cached.polys.get i).cache.coeffs) t ∧ montgomeryReduce s = .ok (r.coeffs.get t)) ∧
          residue (r.coeffs.get t) = ∑ i : Fin k, residue ((products.get i).coeffs.get t) ∧
          (r.coeffs.get t).toInt.natAbs < 2 ^ 14) ∧
    ∀ v w : PolyVec k, (∀ (i : Fin k) (t : Fin 256), ((v.polys.get i).coeffs.get t).toInt.natAbs < 3329) →
      (∀ (i : Fin k) (t : Fin 256), ((w.polys.get i).coeffs.get t).toInt.natAbs < 3329) →
      ∃ c : Poly, (∀ b : Backend, v.innerProductThroughNtt b w = .ok c) ∧ ∀ t : Fin 256, (c.coeffs.get t).toInt =
        (∑ i : Fin k, negacyclic (integers (v.polys.get i).coeffs) (integers (w.polys.get i).coeffs) t) % 3329 := by
  constructor
  swap
  · intro v w hv hw
    exact innerProductThroughNtt_eq_sum hk (fun i => atMost_iff.2 (hv i)) (fun i => atMost_iff.2 (hw i))
  intro v w hv hw
  have hx : ∀ i : Fin k, AtMost 4095 (v.polys.get i).coeffs := fun i => atMost_iff.2 (hv i)
  have hy : ∀ i : Fin k, AtMost 26631 (w.polys.get i).coeffs := fun i => atMost_iff.2 (hw i)
  refine ⟨w.withCaches, ⟨Lane.innerProduct (v.factorList w)⟩,
    Vector.ofFn fun i => ⟨Lane.innerProduct [(v.polys.get i).factors (w.polys.get i)]⟩, fun b => NttVec.cached_eq_lane b w,
    fun b => NttVec.innerProduct_eq_lane b hk hx hy, fun b => NttVec.innerProductCached_eq_lane b hk hx hy, ?_, ?_⟩
  · intro b i
    rw [NttPoly.mul_eq_lane b (hx i) (hy i), get_ofFn]
  · intro t
    obtain ⟨⟨s, hs, hreduce⟩, hsize, hclass⟩ := NttVec.factorList_spec hk hx hy t.isLt
    rw [entry_eq_get] at hreduce hsize
    refine ⟨⟨s, ?_, hreduce⟩, ?_, Nat.lt_succ_of_le hsize⟩
    · rw [hs]
      refine sum_congr rfl ?_
      intro i _
      have hcached : w.withCaches.polys.get i = ⟨w.polys.get i, ⟨Lane.mulCache (w.polys.get i).coeffs⟩⟩ := get_map _ _ i
      rw [hcached]
      rfl
    · apply eq_of_mul_radix_eq
      rw [residues, entry_eq_get] at hclass
      rw [hclass, sum_mul]
      refine sum_congr rfl ?_
      intro i _
      rw [get_ofFn, ← (product_spec (hx i) (hy i)).2 t t.isLt, residues, entry_eq_get]

end

/-- Four polynomials of the largest coefficients a left operand may have. -/
def NttVec.largestLeft : NttVec 4 := ⟨Vector.replicate 4 ⟨Vector.replicate 256 4095⟩⟩

/-- Four polynomials of the largest coefficients a right operand may have. -/
def NttVec.largestRight : NttVec 4 := ⟨Vector.replicate 4 ⟨Vector.replicate 256 26631⟩⟩

/-- Four polynomials of extreme coefficients. -/
def PolyVec.extreme : PolyVec 4 := ⟨Vector.replicate 4 Poly.extreme⟩

theorem NttVec.natAbs_largestLeft (i : Fin 4) (t : Fin 256) :
    ((NttVec.largestLeft.polys.get i).coeffs.get t).toInt.natAbs = 4095 := by
  simp [NttVec.largestLeft]

theorem NttVec.natAbs_largestRight (i : Fin 4) (t : Fin 256) :
    ((NttVec.largestRight.polys.get i).coeffs.get t).toInt.natAbs = 26631 := by
  simp [NttVec.largestRight]

theorem PolyVec.extreme_accepted (i : Fin 4) (t : Fin 256) :
    ((PolyVec.extreme.polys.get i).coeffs.get t).toInt.natAbs < 3329 := by
  rw [PolyVec.extreme, get_replicate]
  exact Poly.extreme_accepted t

/-- The inner products of the largest vectors. -/
theorem innerProduct_extreme :
    (∀ (i : Fin 4) (t : Fin 256), ((NttVec.largestLeft.polys.get i).coeffs.get t).toInt.natAbs < 4096) ∧
      (∀ (i : Fin 4) (t : Fin 256), ((NttVec.largestRight.polys.get i).coeffs.get t).toInt.natAbs < 26632) ∧
      (∀ (i : Fin 4) (t : Fin 256), ((PolyVec.extreme.polys.get i).coeffs.get t).toInt.natAbs < 3329) ∧
      (∃ r : NttPoly, (∀ b : Backend, NttVec.largestLeft.innerProduct b NttVec.largestRight = .ok r) ∧
        ∀ t : Fin 256, (r.coeffs.get t).toInt.natAbs < 2 ^ 14) ∧
      ∃ c : Poly, (∀ b : Backend, PolyVec.extreme.innerProductThroughNtt b PolyVec.extreme = .ok c) ∧ ∀ t : Fin 256,
        (c.coeffs.get t).toInt = (∑ i : Fin 4, negacyclic (integers (PolyVec.extreme.polys.get i).coeffs)
          (integers (PolyVec.extreme.polys.get i).coeffs) t) % 3329 := by
  have hleft : ∀ (i : Fin 4) (t : Fin 256), ((NttVec.largestLeft.polys.get i).coeffs.get t).toInt.natAbs < 4096 :=
    fun i t => (NttVec.natAbs_largestLeft i t).trans_lt (by decide)
  have hright : ∀ (i : Fin 4) (t : Fin 256), ((NttVec.largestRight.polys.get i).coeffs.get t).toInt.natAbs < 26632 :=
    fun i t => (NttVec.natAbs_largestRight i t).trans_lt (by decide)
  obtain ⟨hsums, hring⟩ := innerProduct_eq_sum (Nat.le_refl 4)
  obtain ⟨_, r, _, -, hok, -, -, hentries⟩ := hsums NttVec.largestLeft NttVec.largestRight hleft hright
  exact ⟨hleft, hright, PolyVec.extreme_accepted, ⟨r, hok, fun t => (hentries t).2.2⟩,
    hring PolyVec.extreme PolyVec.extreme PolyVec.extreme_accepted PolyVec.extreme_accepted⟩

end ModuleLattice
