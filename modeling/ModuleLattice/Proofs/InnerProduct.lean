import ModuleLattice.Proofs.MulCache

/-!
# Products pair by pair

Every backend computes the same products. `pairProduct` is the product of two pairs modulo `X ^ 2 - z` when the cache holds
the odd coefficients of the right operand times the roots; read over 32-bit words it is what a lane computes, over the
integers it is what the checked words hold, and over the residue classes it is a product of remainders. The lanes compute it
on all words. The scalar code answers exactly where no sum leaves its word and Montgomery reduction accepts those that are complete
(`Scalar.innerProduct_eq_ok_iff`), and then it agrees. That is so as long as the operands are `InRange`: eight products of the
largest operands still fit a 32-bit word, and their sum is accepted (`innerProduct_spec`).
-/

namespace ModuleLattice

/-! ## The product of two pairs -/

/-- Coefficient `t` of the products of pairs: the pair `t / 2` of one sequence times that of the other, modulo `X ^ 2 - z` if
the cache holds the odd coefficients of the other times `z`. -/
def pairProduct {R : Type*} [Add R] [Mul R] (a b cache : Nat → R) (t : Nat) : R :=
  let j := t / 2
  if t % 2 = 0 then a (2 * j) * b (2 * j) + a (2 * j + 1) * cache j else a (2 * j) * b (2 * j + 1) + a (2 * j + 1) * b (2 * j)

/-- The entries of an array as 32-bit words. -/
def widened {n : Nat} (x : Coeffs n) (i : Nat) : Int32 := (entry x i).toInt32

/-- The two pairs of a quadruple, written out. -/
theorem pairProduct_quad {R : Type*} [Add R] [Mul R] (a b cache : Nat → R) (q : Nat) :
    pairProduct a b cache (4 * q) = a (4 * q) * b (4 * q) + a (4 * q + 1) * cache (2 * q) ∧
      pairProduct a b cache (4 * q + 1) = a (4 * q) * b (4 * q + 1) + a (4 * q + 1) * b (4 * q) ∧
      pairProduct a b cache (4 * q + 2) = a (4 * q + 2) * b (4 * q + 2) + a (4 * q + 3) * cache (2 * q + 1) ∧
      pairProduct a b cache (4 * q + 3) = a (4 * q + 2) * b (4 * q + 3) + a (4 * q + 3) * b (4 * q + 2) := by
  have h0 : 4 * q % 2 = 0 ∧ 4 * q / 2 = 2 * q := by omega
  have h1 : (4 * q + 1) % 2 = 1 ∧ (4 * q + 1) / 2 = 2 * q := by omega
  have h2 : (4 * q + 2) % 2 = 0 ∧ (4 * q + 2) / 2 = 2 * q + 1 := by omega
  have h3 : (4 * q + 3) % 2 = 1 ∧ (4 * q + 3) / 2 = 2 * q + 1 := by omega
  have hlow : 2 * (2 * q) = 4 * q := by omega
  have hhigh : 2 * (2 * q + 1) = 4 * q + 2 := by omega
  simp [pairProduct, h0, h1, h2, h3, hlow, hhigh]

/-! ## Words that hold the products -/

/-- The operands of a product are as small as its checks demand. -/
structure Factors.InRange (f : Factors) : Prop where
  left : AtMost 4095 f.left
  right : AtMost 26631 f.right
  cache : AtMost 3328 f.cache

/-- The products of pairs as 32-bit words. -/
def Factors.words (f : Factors) : Nat → Int32 := pairProduct (widened f.left) (widened f.right) (widened f.cache)

/-- The products of pairs as integers. -/
def Factors.values (f : Factors) : Nat → Int := pairProduct (integers f.left) (integers f.right) (integers f.cache)

/-- A checked sum of two products answers exactly if the exact sum has a word, and then with what a lane computes. -/
theorem sumOfProducts_eq_ok_iff {a b c d : Int16} {r : Int32} : Scalar.sumOfProducts a b c d = .ok r ↔
    Word.Fits32 (a.toInt * b.toInt + c.toInt * d.toInt) ∧ a.toInt32 * b.toInt32 + c.toInt32 * d.toInt32 = r := by
  unfold Scalar.sumOfProducts
  rw [mul32_widened, ok_bind, mul32_widened, ok_bind, Word.add32_eq_ok_iff, (toInt_mul_widened a b).1, (toInt_mul_widened c d).1]
  rfl

namespace Factors

/-- A word that holds a product of pairs holds its value up to multiples of `2 ^ 32`. -/
theorem toInt_words (f : Factors) (t : Nat) : (f.words t).toInt = (f.values t).bmod 4294967296 := by
  unfold words values pairProduct widened integers
  dsimp only
  split <;> rw [Int32.toInt_add, (toInt_mul_widened _ _).1, (toInt_mul_widened _ _).1]

/-- The products of operands in range are small. -/
theorem InRange.natAbs_values_le {f : Factors} (hf : f.InRange) {t : Nat} (ht : t < 256) : (f.values t).natAbs ≤ 218107890 := by
  have hproduct {x y : Int} (hx : x.natAbs ≤ 4095) (hy : y.natAbs ≤ 26631) : (x * y).natAbs ≤ 109053945 := by
    rw [Int.natAbs_mul]
    exact Nat.mul_le_mul hx hy
  have hcache := (hf.cache (t / 2) (by omega)).trans (by decide : 3328 ≤ 26631)
  unfold values pairProduct
  dsimp only
  split
  · have h0 := hproduct (hf.left (2 * (t / 2)) (by omega)) (hf.right (2 * (t / 2)) (by omega))
    have h1 := hproduct (hf.left (2 * (t / 2) + 1) (by omega)) hcache
    exact (Int.natAbs_add_le _ _).trans (Nat.add_le_add h0 h1)
  · have h0 := hproduct (hf.left (2 * (t / 2)) (by omega)) (hf.right (2 * (t / 2) + 1) (by omega))
    have h1 := hproduct (hf.left (2 * (t / 2) + 1) (by omega)) (hf.right (2 * (t / 2)) (by omega))
    exact (Int.natAbs_add_le _ _).trans (Nat.add_le_add h0 h1)

end Factors

/-- The checked products of a quadruple answer exactly if all of them have words, and then with the words of its pairs. -/
theorem quadProductAt_eq_ok_iff {f : Factors} {i : Fin 64} {r : Vector Int32 4} : Scalar.quadProductAt f i = .ok r ↔
    ∀ m : Fin 4, Word.Fits32 (f.values (4 * i + m)) ∧ f.words (4 * i + m) = r.get m := by
  obtain ⟨w0, w1, w2, w3⟩ := pairProduct_quad (widened f.left) (widened f.right) (widened f.cache) i
  obtain ⟨v0, v1, v2, v3⟩ := pairProduct_quad (integers f.left) (integers f.right) (integers f.cache) i
  unfold Scalar.quadProductAt Scalar.quadProduct
  simp only [get_block, bind_eq_ok_iff, sumOfProducts_eq_ok_iff]
  constructor
  · rintro ⟨_, ⟨h0, rfl⟩, _, ⟨h1, rfl⟩, _, ⟨h2, rfl⟩, _, ⟨h3, rfl⟩, h⟩ m
    obtain rfl := Except.ok.inj h
    match m with
    | 0 => exact ⟨(congrArg Word.Fits32 v0).mpr h0, w0⟩
    | 1 => exact ⟨(congrArg Word.Fits32 v1).mpr h1, w1⟩
    | 2 => exact ⟨(congrArg Word.Fits32 v2).mpr h2, w2⟩
    | 3 => exact ⟨(congrArg Word.Fits32 v3).mpr h3, w3⟩
  · intro h
    refine ⟨_, ⟨(congrArg Word.Fits32 v0).mp (h 0).1, rfl⟩, _, ⟨(congrArg Word.Fits32 v1).mp (h 1).1, rfl⟩, _,
      ⟨(congrArg Word.Fits32 v2).mp (h 2).1, rfl⟩, _, ⟨(congrArg Word.Fits32 v3).mp (h 3).1, rfl⟩, ?_⟩
    refine congrArg Except.ok (Vector.ext fun m hm => ?_)
    match m, hm with
    | 0, _ => exact w0.symm.trans (h 0).2
    | 1, _ => exact w1.symm.trans (h 1).2
    | 2, _ => exact w2.symm.trans (h 2).2
    | 3, _ => exact w3.symm.trans (h 3).2

/-! ## Sums of products -/

/-- The sum of the products of pairs at a place, as an integer. -/
def exactSum (fs : List Factors) (t : Nat) : Int := (fs.map fun f => f.values t).sum

@[simp] theorem exactSum_nil (t : Nat) : exactSum [] t = 0 := rfl

@[simp] theorem exactSum_cons (f : Factors) (fs : List Factors) (t : Nat) : exactSum (f :: fs) t = f.values t + exactSum fs t := by
  simp [exactSum]

/-- One more product added to the sums, in lanes. -/
def Lane.accumulate (sums : Vector Int32 256) (f : Factors) : Vector Int32 256 := Vector.ofFn fun t => sums.get t + f.words t

/-- The inner product in lanes. -/
def Lane.innerProduct (fs : List Factors) : Coeffs 256 :=
  (fs.foldl Lane.accumulate (Vector.replicate 256 0)).map Lane.montgomeryReduce

/-- The place of entry `m` of quadruple `i`. -/
def quadPlace (i : Fin 64) (m : Fin 4) : Fin 256 := ⟨4 * i + m, by omega⟩

/-- Every place belongs to a quadruple. -/
theorem forall_places_iff {P : Fin 256 → Prop} : (∀ t, P t) ↔ ∀ i m, P (quadPlace i m) := by
  refine ⟨fun h i m => h _, fun h t => ?_⟩
  have hplace : quadPlace ⟨t / 4, by omega⟩ ⟨t % 4, by omega⟩ = t := Fin.ext (Nat.div_add_mod t.val 4)
  exact hplace ▸ h _ _

/-- Entry `m` of block `i` of four, counted through all blocks. -/
theorem get_block_quad {α : Type} (x : Vector α 256) (i : Fin 64) (m : Fin 4) : (block 64 4 x i).get m = x.get (quadPlace i m) := by
  have hplace : i.val * 4 + m.val = 4 * i.val + m.val := by omega
  rw [get_eq_getElem, get_eq_getElem, getElem_block]
  simp only [hplace, quadPlace]

/-- A checked loop that goes on with the products of every quadruple answers exactly if all of them have words and its steps answer
on the words. -/
theorem quads_eq_ok_iff {α : Type} {f : Factors} {step : Fin 64 → Fin 4 → Int32 → Except Fault α} {r : Vector α 256} :
    (do
      let quads ← Vector.ofFnM fun i : Fin 64 => do
        let terms ← Scalar.quadProductAt f i
        Vector.ofFnM fun m : Fin 4 => step i m (terms.get m)
      return quads.flatten) = Except.ok r ↔
      ∀ i m, Word.Fits32 (f.values (quadPlace i m)) ∧ step i m (f.words (quadPlace i m)) = .ok (r.get (quadPlace i m)) := by
  rw [flatten_ofFnM_eq_ok_iff]
  refine forall_congr' fun i => ?_
  simp only [bind_eq_ok_iff, quadProductAt_eq_ok_iff, ofFnM_eq_ok_iff, get_block_quad]
  constructor
  · rintro ⟨terms, hterms, hsteps⟩ m
    exact ⟨(hterms m).1, (hterms m).2 ▸ hsteps m⟩
  · intro h
    have hword (m : Fin 4) : (Vector.ofFn fun m : Fin 4 => f.words (quadPlace i m)).get m = f.words (quadPlace i m) := get_ofFn _ m
    refine ⟨Vector.ofFn fun m => f.words (quadPlace i m), fun m => ⟨(h m).1, (hword m).symm⟩, fun m => ?_⟩
    rw [get_ofFn]
    exact (h m).2

/-- One more product is added in checked words exactly if the product and the sum have words at every place, and then as in
lanes. -/
theorem accumulate_eq_ok_iff {sums r : Vector Int32 256} {f : Factors} : Scalar.accumulate sums f = .ok r ↔
    (∀ t : Fin 256, Word.Fits32 (f.values t) ∧ Word.Fits32 ((sums.get t).toInt + f.values t)) ∧ Lane.accumulate sums f = r := by
  have hplace : ∀ t : Fin 256, (Word.Fits32 (f.values t) ∧ Word.add32 (sums.get t) (f.words t) = .ok (r.get t)) ↔
      (Word.Fits32 (f.values t) ∧ Word.Fits32 ((sums.get t).toInt + f.values t)) ∧ (Lane.accumulate sums f).get t = r.get t := by
    intro t
    rw [Word.add32_eq_ok_iff, Lane.accumulate, get_ofFn]
    refine (and_congr_right fun hfits => ?_).trans and_assoc.symm
    rw [f.toInt_words, Word.bmod_of_fits32 hfits]
    rfl
  have hquads : Scalar.accumulate sums f = .ok r ↔
      ∀ t : Fin 256, Word.Fits32 (f.values t) ∧ Word.add32 (sums.get t) (f.words t) = .ok (r.get t) := by
    rw [forall_places_iff]
    simp only [← get_block_quad sums]
    exact quads_eq_ok_iff
  rw [hquads, forall_congr' hplace, forall_and, ← eq_iff_get]

/-- A sum in a lane is the exact sum up to multiples of `2 ^ 32`. -/
theorem Lane.toInt_get_accumulate (sums : Vector Int32 256) (f : Factors) (t : Fin 256) :
    ((Lane.accumulate sums f).get t).toInt = ((sums.get t).toInt + f.values t).bmod 4294967296 := by
  rw [Lane.accumulate, get_ofFn, Int32.toInt_add, f.toInt_words, Int.add_bmod_bmod]

/-- No step of summing the products at a place leaves the 32-bit word. -/
structure SumsFit (start : Int) (fs : List Factors) (t : Nat) : Prop where
  products : ∀ f ∈ fs, Word.Fits32 (f.values t)
  sums : ∀ n, Word.Fits32 (start + exactSum (fs.take n) t)

theorem sumsFit_cons_iff {start : Int} {f : Factors} {fs : List Factors} {t : Nat} : SumsFit start (f :: fs) t ↔
    Word.Fits32 start ∧ Word.Fits32 (f.values t) ∧ SumsFit (start + f.values t) fs t := by
  constructor
  · rintro ⟨hproducts, hsums⟩
    obtain ⟨hf, hfs⟩ := List.forall_mem_cons.1 hproducts
    refine ⟨by simpa using hsums 0, hf, hfs, fun n => ?_⟩
    have hnext := hsums (n + 1)
    rwa [List.take_succ_cons, exactSum_cons, ← Int.add_assoc] at hnext
  · rintro ⟨hstart, hf, hproducts, hsums⟩
    refine ⟨List.forall_mem_cons.2 ⟨hf, hproducts⟩, fun n => ?_⟩
    cases n with
    | zero => simpa using hstart
    | succ n =>
      rw [List.take_succ_cons, exactSum_cons, ← Int.add_assoc]
      exact hsums n

/-- The products are summed in checked words exactly if no step leaves the word at any place, and then as in lanes. -/
theorem foldlM_accumulate_eq_ok_iff {fs : List Factors} {sums r : Vector Int32 256} : fs.foldlM Scalar.accumulate sums = .ok r ↔
    (∀ t : Fin 256, SumsFit (sums.get t).toInt fs t) ∧ fs.foldl Lane.accumulate sums = r := by
  induction fs generalizing sums with
  | nil =>
    have hnil : ∀ t : Fin 256, SumsFit (sums.get t).toInt [] t := by
      refine fun t => ⟨fun f hf => absurd hf List.not_mem_nil, fun n => ?_⟩
      rw [List.take_nil, exactSum_nil, Int.add_zero]
      exact Word.fits32_toInt _
    exact ⟨fun h => ⟨hnil, Except.ok.inj h⟩, fun h => congrArg Except.ok h.2⟩
  | cons f fs ih =>
    -- Where the first sum fits it is exact, so the rest is summed from the exact value.
    have hvalue {t : Fin 256} (h : Word.Fits32 ((sums.get t).toInt + f.values t)) :
        ((Lane.accumulate sums f).get t).toInt = (sums.get t).toInt + f.values t := by
      rw [Lane.toInt_get_accumulate, Word.bmod_of_fits32 h]
    rw [List.foldlM_cons, bind_eq_ok_iff, List.foldl_cons]
    constructor
    · rintro ⟨next, hstep, hrest⟩
      obtain ⟨hfits, rfl⟩ := accumulate_eq_ok_iff.1 hstep
      obtain ⟨hsums, hr⟩ := ih.1 hrest
      refine ⟨fun t => sumsFit_cons_iff.2 ⟨Word.fits32_toInt _, (hfits t).1, ?_⟩, hr⟩
      exact hvalue (hfits t).2 ▸ hsums t
    · rintro ⟨hsums, hr⟩
      have hall := fun t => sumsFit_cons_iff.1 (hsums t)
      have hfits : ∀ t : Fin 256, Word.Fits32 (f.values t) ∧ Word.Fits32 ((sums.get t).toInt + f.values t) := by
        intro t
        have hfirst := (hall t).2.2.sums 0
        rw [List.take_zero, exactSum_nil, Int.add_zero] at hfirst
        exact ⟨(hall t).2.1, hfirst⟩
      exact ⟨_, accumulate_eq_ok_iff.2 ⟨hfits, rfl⟩, ih.2 ⟨fun t => (hvalue (hfits t).2).symm ▸ (hall t).2.2, hr⟩⟩

/-- The sums in lanes are the exact sums up to multiples of `2 ^ 32`. -/
theorem toInt_foldl_accumulate (fs : List Factors) (sums : Vector Int32 256) (t : Fin 256) :
    ((fs.foldl Lane.accumulate sums).get t).toInt = ((sums.get t).toInt + exactSum fs t).bmod 4294967296 := by
  induction fs generalizing sums with
  | nil =>
    rw [exactSum_nil, Int.add_zero, Word.bmod_of_fits32 (Word.fits32_toInt _)]
    rfl
  | cons f fs ih =>
    rw [List.foldl_cons, ih, Lane.toInt_get_accumulate, exactSum_cons, Int.bmod_add_bmod, Int.add_assoc]

theorem toInt_zeros (t : Fin 256) : ((Vector.replicate 256 (0 : Int32)).get t).toInt = 0 := by
  rw [get_replicate]
  rfl

/-- Where the exact sum has a word, the sum in lanes is exact. -/
theorem toInt_sums {fs : List Factors} {t : Fin 256} (h : Word.Fits32 (exactSum fs t)) :
    ((fs.foldl Lane.accumulate (Vector.replicate 256 0)).get t).toInt = exactSum fs t := by
  rw [toInt_foldl_accumulate, toInt_zeros, Int.zero_add, Word.bmod_of_fits32 h]

/-- A number that Montgomery reduction accepts has a word. -/
theorem fits32_of_accepted {x : Int} (h : x.natAbs ≤ 2038398975) : Word.Fits32 x := by
  unfold Word.Fits32
  omega

/-- The scalar inner product answers exactly if no sum leaves the word and Montgomery reduction accepts all that are complete, and
then with what the lanes compute. -/
theorem Scalar.innerProduct_eq_ok_iff {fs : List Factors} {z : Coeffs 256} : Scalar.innerProduct fs = .ok z ↔
    (∀ t : Fin 256, SumsFit 0 fs t ∧ (exactSum fs t).natAbs ≤ 2038398975) ∧ Lane.innerProduct fs = z := by
  have hreduce : ∀ t : Fin 256, SumsFit 0 fs t →
      (montgomeryReduce ((fs.foldl Lane.accumulate (Vector.replicate 256 0)).get t) = .ok (z.get t) ↔
        (exactSum fs t).natAbs ≤ 2038398975 ∧ (Lane.innerProduct fs).get t = z.get t) := by
    intro t h
    have hall := h.sums fs.length
    rw [List.take_length, Int.zero_add] at hall
    rw [montgomeryReduce_eq_ok_iff, toInt_sums hall, Lane.innerProduct, get_map]
  unfold Scalar.innerProduct
  simp only [bind_eq_ok_iff, foldlM_accumulate_eq_ok_iff, toInt_zeros, ofFnM_eq_ok_iff]
  constructor
  · rintro ⟨_, ⟨hsums, rfl⟩, hz⟩
    have hz := fun t => (hreduce t (hsums t)).1 (hz t)
    exact ⟨fun t => ⟨hsums t, (hz t).1⟩, eq_iff_get.2 fun t => (hz t).2⟩
  · rintro ⟨h, rfl⟩
    exact ⟨_, ⟨fun t => (h t).1, rfl⟩, fun t => (hreduce t (h t).1).2 ⟨(h t).2, rfl⟩⟩

/-- The scalar product answers exactly if Montgomery reduction accepts the products of all pairs, and then with what the lanes
compute for an inner product of one pair of factors. -/
theorem Scalar.product_eq_ok_iff {f : Factors} {z : Coeffs 256} : Scalar.product f = .ok z ↔
    (∀ t : Fin 256, (f.values t).natAbs ≤ 2038398975) ∧ Lane.innerProduct [f] = z := by
  have hplace : ∀ t : Fin 256, (Word.Fits32 (f.values t) ∧ montgomeryReduce (f.words t) = .ok (z.get t)) ↔
      (f.values t).natAbs ≤ 2038398975 ∧ (Lane.innerProduct [f]).get t = z.get t := by
    intro t
    have hword : (Lane.innerProduct [f]).get t = Lane.montgomeryReduce (f.words t) := by
      rw [Lane.innerProduct, get_map, List.foldl_cons, List.foldl_nil, Lane.accumulate, get_ofFn, get_replicate,
        Int32.zero_add]
    rw [montgomeryReduce_eq_ok_iff, hword]
    constructor
    · rintro ⟨hfits, h⟩
      rwa [f.toInt_words, Word.bmod_of_fits32 hfits] at h
    · intro h
      have hfits := fits32_of_accepted h.1
      rw [f.toInt_words, Word.bmod_of_fits32 hfits]
      exact ⟨hfits, h⟩
  have hquads : Scalar.product f = .ok z ↔
      ∀ t : Fin 256, Word.Fits32 (f.values t) ∧ montgomeryReduce (f.words t) = .ok (z.get t) := by
    rw [forall_places_iff]
    exact quads_eq_ok_iff
  rw [hquads, forall_congr' hplace, forall_and, ← eq_iff_get]

/-- Every product adds at most its own size to the sum. -/
theorem natAbs_exactSum_le {fs : List Factors} (hfs : ∀ f ∈ fs, f.InRange) {t : Nat} (ht : t < 256) :
    (exactSum fs t).natAbs ≤ fs.length * 218107890 := by
  induction fs with
  | nil => exact Nat.zero_le _
  | cons f fs ih =>
    have hf := (hfs f List.mem_cons_self).natAbs_values_le ht
    have hrest := ih fun g hg => hfs g (List.mem_cons_of_mem f hg)
    rw [exactSum_cons, List.length_cons]
    omega

/-- Sums of at most four products of operands in range stay far inside the word. -/
theorem sumsFit_of_inRange {fs : List Factors} (hfs : ∀ f ∈ fs, f.InRange) (hlen : fs.length ≤ 4) {t : Nat} (ht : t < 256) :
    SumsFit 0 fs t ∧ (exactSum fs t).natAbs ≤ 2038398975 := by
  have hsize (gs : List Factors) (hgs : ∀ f ∈ gs, f.InRange) (hlen : gs.length ≤ 4) : (exactSum gs t).natAbs ≤ 2038398975 := by
    have := natAbs_exactSum_le hgs ht
    omega
  refine ⟨⟨fun f hf => ?_, fun n => ?_⟩, hsize fs hfs hlen⟩
  · exact fits32_of_accepted (((hfs f hf).natAbs_values_le ht).trans (by decide))
  · rw [Int.zero_add]
    have htake : (fs.take n).length ≤ 4 := (List.length_take_le' n fs).trans hlen
    exact fits32_of_accepted (hsize _ (fun f hf => hfs f (List.mem_of_mem_take hf)) htake)

/-- On operands in range, the scalar inner product of at most four pairs of factors is the one the lanes compute. -/
theorem Scalar.innerProduct_eq_lane {fs : List Factors} (hfs : ∀ f ∈ fs, f.InRange) (hlen : fs.length ≤ 4) :
    Scalar.innerProduct fs = .ok (Lane.innerProduct fs) :=
  Scalar.innerProduct_eq_ok_iff.2 ⟨fun t => sumsFit_of_inRange hfs hlen t.isLt, rfl⟩

/-- A single product is an inner product of one pair of factors. -/
theorem Scalar.product_eq_lane {f : Factors} (hf : f.InRange) : Scalar.product f = .ok (Lane.innerProduct [f]) :=
  Scalar.product_eq_ok_iff.2 ⟨fun t => (hf.natAbs_values_le t.isLt).trans (by decide), rfl⟩

/-- One more product in vectors, lane by lane. -/
theorem Wide.get_accumulate (w : LaneWidth) (s : Fin w.steps) (sums : Wide.Sums w) (f : Factors) (i : Fin w.lanes) (m : Fin 4) :
    ((Wide.accumulate w s sums f).get m).get i = (sums.get m).get i + f.words (4 * (s * w.lanes + i) + m) := by
  have hwiden : ∀ (x : Coeffs 256) (m : Fin 4),
      ((widen w (deinterleaveQuads (quadsAt w x s))).get m).get i = widened x (4 * (s * w.lanes + i) + m) := by
    intro x m
    rw [widened, ← get_quadsAt w x s i m, widen, get_map, get_map]
  have hfirst : ((deinterleavePairs (pairsAt w f.cache s)).1.get i).toInt32 = widened f.cache (2 * (s * w.lanes + i)) := by
    rw [widened, (get_pairsAt w f.cache s i).1]
  have hsecond : ((deinterleavePairs (pairsAt w f.cache s)).2.get i).toInt32 = widened f.cache (2 * (s * w.lanes + i) + 1) := by
    rw [widened, (get_pairsAt w f.cache s i).2]
  obtain ⟨h0, h1, h2, h3⟩ := pairProduct_quad (widened f.left) (widened f.right) (widened f.cache) (s * w.lanes + i)
  have hleft := hwiden f.left
  have hright := hwiden f.right
  -- In each of the four vectors the lane computes the sum on the right of the matching equation.
  unfold accumulate
  match m with
  | 0 =>
    refine (get_ofFn _ i).trans (congrArg ((sums.get 0).get i + ·) (Eq.trans ?_ h0.symm))
    exact congrArg₂ (· + ·) (congrArg₂ (· * ·) (hleft 0) (hright 0)) (congrArg₂ (· * ·) (hleft 1) hfirst)
  | 1 =>
    refine (get_ofFn _ i).trans (congrArg ((sums.get 1).get i + ·) (Eq.trans ?_ h1.symm))
    exact congrArg₂ (· + ·) (congrArg₂ (· * ·) (hleft 0) (hright 1)) (congrArg₂ (· * ·) (hleft 1) (hright 0))
  | 2 =>
    refine (get_ofFn _ i).trans (congrArg ((sums.get 2).get i + ·) (Eq.trans ?_ h2.symm))
    exact congrArg₂ (· + ·) (congrArg₂ (· * ·) (hleft 2) (hright 2)) (congrArg₂ (· * ·) (hleft 3) hsecond)
  | 3 =>
    refine (get_ofFn _ i).trans (congrArg ((sums.get 3).get i + ·) (Eq.trans ?_ h3.symm))
    exact congrArg₂ (· + ·) (congrArg₂ (· * ·) (hleft 2) (hright 3)) (congrArg₂ (· * ·) (hleft 3) (hright 2))

/-- The place of entry `m` of lane `i` in step `s`. -/
def lanePlace (w : LaneWidth) (s : Fin w.steps) (i : Fin w.lanes) (m : Fin 4) : Fin 256 :=
  ⟨4 * (s * w.lanes + i) + m, by have := w.lane_lt s i; omega⟩

/-- The sums of one step in vectors are the sums of its lanes. -/
theorem Wide.get_foldl_accumulate (w : LaneWidth) (s : Fin w.steps) (fs : List Factors) {sums : Wide.Sums w}
    {lanes : Vector Int32 256} (h : ∀ (i : Fin w.lanes) (m : Fin 4), (sums.get m).get i = lanes.get (lanePlace w s i m))
    (i : Fin w.lanes) (m : Fin 4) :
    ((fs.foldl (Wide.accumulate w s) sums).get m).get i = (fs.foldl Lane.accumulate lanes).get (lanePlace w s i m) := by
  induction fs generalizing sums lanes with
  | nil => exact h i m
  | cons f fs ih =>
    rw [List.foldl_cons, List.foldl_cons]
    refine ih ?_
    intro i m
    rw [Wide.get_accumulate, h, Lane.accumulate, get_ofFn]
    rfl

/-- The inner product in vectors is the inner product lane by lane. -/
theorem Wide.innerProduct_eq_lane (w : LaneWidth) (fs : List Factors) : Wide.innerProduct w fs = Lane.innerProduct fs := by
  refine eq_of_entries ?_
  intro t ht
  obtain ⟨s, i, m, rfl⟩ := place_in_steps w 4 (by decide) ht
  have hzero : ∀ (i : Fin w.lanes) (m : Fin 4), ((Vector.replicate 4 (Vector.replicate w.lanes (0 : Int32))).get m).get i =
      (Vector.replicate 256 (0 : Int32)).get (lanePlace w s i m) := by
    intro i m
    simp
  have hsums := Wide.get_foldl_accumulate w s fs hzero i m
  unfold Wide.innerProduct Lane.innerProduct
  rw [entry_steps, get_ofFn]
  dsimp only
  rw [entry_interleaveQuads _ m i.isLt, entry_eq_get _ i, get_map, get_map, hsums, ← get_map Lane.montgomeryReduce,
    ← entry_eq_get]
  rfl

/-- Every backend computes the same inner product of at most four pairs of operands in range. -/
theorem Backend.innerProduct_eq_lane (b : Backend) {fs : List Factors} (hfs : ∀ f ∈ fs, f.InRange) (hlen : fs.length ≤ 4) :
    b.innerProduct fs = .ok (Lane.innerProduct fs) := by
  cases b with
  | reference => exact Scalar.innerProduct_eq_lane hfs hlen
  | simd w => exact congrArg Except.ok (Wide.innerProduct_eq_lane w fs)

/-- Every backend computes the same product of operands in range. -/
theorem Backend.product_eq_lane (b : Backend) {f : Factors} (hf : f.InRange) : b.product f = .ok (Lane.innerProduct [f]) := by
  cases b with
  | reference => exact Scalar.product_eq_lane hf
  | simd w => exact congrArg Except.ok (Wide.innerProduct_eq_lane w [f])

/-! ## What the inner product is -/

/-- Every coefficient of an inner product is the Montgomery reduction of the exact sum of the products of pairs; it is small,
and its class is the class of the sum divided by `2 ^ 16`. -/
theorem innerProduct_spec {fs : List Factors} (hfs : ∀ f ∈ fs, f.InRange) (hlen : fs.length ≤ 4) {t : Nat} (ht : t < 256) :
    (∃ s : Int32, s.toInt = exactSum fs t ∧ montgomeryReduce s = .ok (entry (Lane.innerProduct fs) t)) ∧
      (entry (Lane.innerProduct fs) t).toInt.natAbs ≤ (fs.length * 218107890 + 109084672) / 65536 ∧
      residues (Lane.innerProduct fs) t * 65536 = (exactSum fs t : Int) := by
  have hsize := natAbs_exactSum_le hfs ht
  have hfits : Word.Fits32 (exactSum fs t) := fits32_of_accepted (by omega)
  have hsum : ((fs.foldl Lane.accumulate (Vector.replicate 256 0)).get ⟨t, ht⟩).toInt = exactSum fs t :=
    @toInt_sums fs ⟨t, ht⟩ hfits
  rw [← hsum] at hsize
  have hfit : ((fs.foldl Lane.accumulate (Vector.replicate 256 0)).get ⟨t, ht⟩).toInt.natAbs ≤ 2038398975 := by omega
  have hentry : entry (Lane.innerProduct fs) t =
      Lane.montgomeryReduce ((fs.foldl Lane.accumulate (Vector.replicate 256 0)).get ⟨t, ht⟩) := by
    rw [← get_map Lane.montgomeryReduce]
    exact entry_eq_get _ ⟨t, ht⟩
  rw [residues, hentry]
  refine ⟨⟨_, hsum, montgomeryReduce_eq_lane hfit⟩, ?_, ?_⟩
  · have := natAbs_montgomeryReduce_le hfit
    omega
  · rw [residue_montgomeryReduce hfit, hsum]

end ModuleLattice
