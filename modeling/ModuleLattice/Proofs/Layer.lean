import ModuleLattice.Transform.Layers
import ModuleLattice.Proofs.Splitting

/-!
# One layer of the transforms

A layer is two statements. The first is about words: as long as no scalar butterfly of the layer overflows, the layer answers
with `Lane.layer`, in which every butterfly runs in a lane, whatever the backend. The second is about one butterfly: from the
sizes of its two words follow the sizes and the residue classes of the two results, and that nothing overflows.

Entries of arrays are read by `entry`, which needs no proof that the index is in range; a layer's array has the same entries
whether its length is written `256` or as a number of blocks times their size.

A pass is opened by what it does with one pair (`passAt`): where it answers and where it stops follows from the pairs.
-/

namespace ModuleLattice

/-! ## Entries -/

/-- Entry `i` of an array, zero beyond its end. -/
def entry {n : Nat} (x : Coeffs n) (i : Nat) : Int16 := x[i]?.getD 0

theorem entry_eq_getElem {n : Nat} (x : Coeffs n) {i : Nat} (hi : i < n) : entry x i = x[i] := by
  simp [entry, hi]

theorem entry_eq_get {n : Nat} (x : Coeffs n) (i : Fin n) : entry x i = x.get i := entry_eq_getElem x i.isLt

/-- The entries of an array as integers. -/
def integers {n : Nat} (x : Coeffs n) (i : Nat) : Int := (entry x i).toInt

/-- The residue classes of an array. -/
def residues {n : Nat} (x : Coeffs n) (i : Nat) : ZMod 3329 := residue (entry x i)

/-- Every entry is at most of a given size. -/
def AtMost {n : Nat} (bound : Nat) (x : Coeffs n) : Prop := ∀ i < n, (entry x i).toInt.natAbs ≤ bound

/-- A check of an array against a symmetric range, entry by entry. -/
theorem holds_iff_atMost {n bound : Nat} {c : Contract} (hc : c.range = .magnitudeBelow (bound + 1)) {x : Coeffs n} :
    c.Holds x ↔ AtMost bound x := by
  unfold Contract.Holds AtMost
  rw [hc]
  constructor
  · intro h i hi
    have := magnitudeBelow_iff.1 (h ⟨i, hi⟩)
    rw [entry_eq_getElem x hi]
    exact Nat.le_of_lt_succ this
  · intro h i
    have := h i i.isLt
    rw [entry_eq_getElem x i.isLt] at this
    exact magnitudeBelow_iff.2 (Nat.lt_succ_of_le this)

/-- Entries below a bound, the bound written as the checks write it. -/
theorem atMost_iff {n bound : Nat} {x : Coeffs n} : AtMost bound x ↔ ∀ i : Fin n, (x.get i).toInt.natAbs < bound + 1 := by
  constructor
  · intro h i
    rw [← entry_eq_get]
    exact Nat.lt_succ_of_le (h i i.isLt)
  · intro h i hi
    have hi' := h ⟨i, hi⟩
    rw [← entry_eq_get] at hi'
    exact Nat.le_of_lt_succ hi'

/-- A smaller bound implies a larger one. -/
theorem AtMost.mono {n small large : Nat} {x : Coeffs n} (h : AtMost small x) (hle : small ≤ large) : AtMost large x :=
  fun i hi => (h i hi).trans hle

/-- A check against a symmetric range passes on entries that keep the bound. -/
theorem require_of_atMost {n bound : Nat} {c : Contract} (hc : c.range = .magnitudeBelow (bound + 1)) {x : Coeffs n}
    (hx : AtMost bound x) : c.require x = .ok () :=
  Contract.require_eq_ok_iff.2 ((holds_iff_atMost hc).2 hx)

/-- An entry of a flattened array of blocks. -/
theorem entry_flatten {n m b j : Nat} (xs : Vector (Coeffs m) n) (hb : b < n) (hj : j < m) :
    entry xs.flatten (b * m + j) = xs[b][j] := by
  have hdiv : (b * m + j) / m = b := by
    rw [Nat.mul_comm, Nat.mul_add_div (by omega), Nat.div_eq_of_lt hj, Nat.add_zero]
  have hmod : (b * m + j) % m = j := by
    rw [Nat.mul_comm, Nat.mul_add_mod, Nat.mod_eq_of_lt hj]
  rw [entry_eq_getElem _ (block_index_lt hb hj), Vector.getElem_flatten]
  simp only [hdiv, hmod]

/-! ## A pass, pair by pair -/

namespace Butterfly

variable {n wide wide' : Nat} {lane lane' : Int16 → Int16 → Int16 × Int16} {scalar : Int16 → Int16 → Except Fault (Int16 × Int16)}
  {low high low' high' : Coeffs n} {y : Coeffs n × Coeffs n}

/-- The pair at a place of two halves. -/
def pairAt (y : Coeffs n × Coeffs n) (i : Fin n) : Int16 × Int16 := (y.1.get i, y.2.get i)

/-- Two halves are determined by their pairs. -/
theorem eq_of_pairs {x y : Coeffs n × Coeffs n} (h : ∀ i, pairAt x i = pairAt y i) : x = y := by
  refine Prod.ext (eq_iff_get.2 fun i => ?_) (eq_iff_get.2 fun i => ?_)
  · exact congrArg Prod.fst (h i)
  · exact congrArg Prod.snd (h i)

/-- What a pass does with the pair at a place. -/
def passAt (wide : Nat) (lane : Int16 → Int16 → Int16 × Int16) (scalar : Int16 → Int16 → Except Fault (Int16 × Int16))
    (low high : Coeffs n) (i : Fin n) : Except Fault (Int16 × Int16) :=
  if i.val < wide then .ok (lane (low.get i) (high.get i)) else scalar (low.get i) (high.get i)

theorem pass_eq : pass wide lane scalar low high = do
    let pairs ← Vector.ofFnM (passAt wide lane scalar low high)
    return (pairs.map Prod.fst, pairs.map Prod.snd) := rfl

/-- Passes that do the same with every pair are the same. -/
theorem pass_congr (h : ∀ i, passAt wide lane scalar low high i = passAt wide' lane' scalar low' high' i) :
    pass wide lane scalar low high = pass wide' lane' scalar low' high' := by
  rw [pass_eq, pass_eq, funext h]

/-- A pass answers with two halves exactly if it does with every pair. -/
theorem pass_eq_ok_iff : pass wide lane scalar low high = .ok y ↔ ∀ i, passAt wide lane scalar low high i = .ok (pairAt y i) := by
  rw [pass_eq, bind_eq_ok_iff]
  constructor
  · rintro ⟨pairs, hpairs, hy⟩ i
    rw [ofFnM_eq_ok_iff.1 hpairs i, ← Except.ok.inj hy, pairAt, get_map, get_map]
  · intro h
    refine ⟨Vector.ofFn (pairAt y), ofFnM_eq_ok_iff.2 fun i => ?_, ?_⟩
    · rw [get_ofFn, h]
    · refine congrArg Except.ok (eq_of_pairs fun i => ?_)
      rw [pairAt, get_map, get_map, get_ofFn]

/-- A pass stops exactly where the checked formula does behind the wide part, with the first fault there. -/
theorem pass_eq_error_iff {e : Fault} : pass wide lane scalar low high = .error e ↔
    ∃ i : Fin n, wide ≤ i.val ∧ scalar (low.get i) (high.get i) = .error e ∧
      ∀ j < i, wide ≤ j.val → ∃ r, scalar (low.get j) (high.get j) = .ok r := by
  have herror (i : Fin n) :
      passAt wide lane scalar low high i = .error e ↔ wide ≤ i.val ∧ scalar (low.get i) (high.get i) = .error e := by
    by_cases hi : i.val < wide
    · simp [passAt, hi]
    · simp [passAt, hi, Nat.le_of_not_lt hi]
  have hanswers (j : Fin n) : (∃ r, passAt wide lane scalar low high j = .ok r) ↔
      (wide ≤ j.val → ∃ r, scalar (low.get j) (high.get j) = .ok r) := by
    by_cases hj : j.val < wide
    · simp [passAt, hj, Nat.not_le_of_lt hj]
    · simp [passAt, hj, Nat.le_of_not_lt hj]
  rw [pass_eq, bind_eq_error_iff, ofFnM_eq_error_iff]
  simp only [herror, hanswers, and_assoc]
  constructor
  · rintro (h | ⟨_, _, hnone⟩)
    · exact h
    · cases hnone
  · exact .inl

end Butterfly

/-! ## A layer in lanes -/

namespace Lane

/-- A pass over two halves with every pair in a lane. -/
def pass {n : Nat} (pair : Int16 → Int16 → Int16 × Int16) (low high : Coeffs n) : Coeffs n × Coeffs n :=
  (Vector.ofFn fun i => (pair (low.get i) (high.get i)).1, Vector.ofFn fun i => (pair (low.get i) (high.get i)).2)

/-- A layer with every pair in a lane. -/
def layer {blocks half : Nat} (pair : Fin blocks → Int16 → Int16 → Int16 × Int16) (x : Coeffs (blocks * (half + half))) :
    Coeffs (blocks * (half + half)) :=
  (Vector.ofFn fun b =>
    let part := block blocks (half + half) x b
    let (low, high) := pass (pair b) (lowerHalf part) (upperHalf part)
    low ++ high).flatten

end Lane

variable {blocks half : Nat}

/-- The pair of entries at place `i` of block `b`, half a block apart. -/
theorem halves_entry (x : Coeffs (blocks * (half + half))) (b : Fin blocks) (i : Fin half) :
    (lowerHalf (block blocks (half + half) x b)).get i = entry x (b * (half + half) + i) ∧
      (upperHalf (block blocks (half + half) x b)).get i = entry x (b * (half + half) + (half + i)) := by
  have hlow : i.val < half + half := by omega
  have hhigh : half + i.val < half + half := by omega
  rw [entry_eq_getElem x (block_index_lt b.isLt hlow), entry_eq_getElem x (block_index_lt b.isLt hhigh)]
  exact ⟨by simp [getElem_block], by simp [getElem_block]⟩

/-- A pass is the pass in lanes if the scalar steps behind its wide part answer with what a lane computes. -/
theorem pass_eq_lane {n wide : Nat} {lane : Int16 → Int16 → Int16 × Int16}
    {scalar : Int16 → Int16 → Except Fault (Int16 × Int16)} {low high : Coeffs n}
    (h : ∀ i : Fin n, wide ≤ i.val → scalar (low.get i) (high.get i) = .ok (lane (low.get i) (high.get i))) :
    Butterfly.pass wide lane scalar low high = .ok (Lane.pass lane low high) := by
  refine Butterfly.pass_eq_ok_iff.2 fun i => ?_
  have hpair : Butterfly.pairAt (Lane.pass lane low high) i = lane (low.get i) (high.get i) := by
    rw [Butterfly.pairAt, Lane.pass, get_ofFn, get_ofFn]
  rw [Butterfly.passAt, hpair]
  by_cases hi : i.val < wide
  · rw [if_pos hi]
  · rw [if_neg hi]
    exact h i (Nat.le_of_not_lt hi)

/-- A layer is the layer in lanes if the scalar steps behind the wide parts of its passes answer with what a lane computes. -/
theorem layer_eq_lane {wide : Nat} {lane : Int16 → Int16 → Int16 → Int16 × Int16}
    {scalar : Int16 → Int16 → Int16 → Except Fault (Int16 × Int16)} {root : Fin blocks → Int16}
    {x : Coeffs (blocks * (half + half))}
    (h : ∀ (b : Fin blocks) (i : Fin half), wide ≤ i.val →
      scalar (root b) (entry x (b * (half + half) + i)) (entry x (b * (half + half) + (half + i))) =
        .ok (lane (root b) (entry x (b * (half + half) + i)) (entry x (b * (half + half) + (half + i))))) :
    layer (fun zeta => Butterfly.pass wide (lane zeta) (scalar zeta)) root x =
      .ok (Lane.layer (fun b => lane (root b)) x) := by
  have hparts : Vector.ofFnM (fun b : Fin blocks => do
      let part := block blocks (half + half) x b
      let (low, high) ← Butterfly.pass wide (lane (root b)) (scalar (root b)) (lowerHalf part) (upperHalf part)
      return low ++ high) =
      .ok (Vector.ofFn fun b =>
        let part := block blocks (half + half) x b
        let (low, high) := Lane.pass (lane (root b)) (lowerHalf part) (upperHalf part)
        low ++ high) := by
    refine ofFnM_eq_ok_iff.2 ?_
    intro b
    have hpass : Butterfly.pass wide (lane (root b)) (scalar (root b)) (lowerHalf (block blocks (half + half) x b))
        (upperHalf (block blocks (half + half) x b)) =
        .ok (Lane.pass (lane (root b)) (lowerHalf (block blocks (half + half) x b))
          (upperHalf (block blocks (half + half) x b))) := by
      refine pass_eq_lane ?_
      intro i hi
      rw [(halves_entry x b i).1, (halves_entry x b i).2]
      exact h b i hi
    dsimp only
    rw [hpass, ok_bind]
    simp [pure, Except.pure]
  unfold layer
  rw [hparts]
  rfl

/-- The entries of a layer in lanes, the lower half of a block. -/
theorem entry_layer_low (pair : Fin blocks → Int16 → Int16 → Int16 × Int16) (x : Coeffs (blocks * (half + half)))
    (b : Fin blocks) (i : Fin half) :
    entry (Lane.layer pair x) (b * (half + half) + i) =
      (pair b (entry x (b * (half + half) + i)) (entry x (b * (half + half) + (half + i)))).1 := by
  have hi : i.val < half + half := by omega
  unfold Lane.layer
  rw [entry_flatten _ b.isLt hi, ← (halves_entry x b i).1, ← (halves_entry x b i).2]
  simp [Lane.pass]

/-- The entries of a layer in lanes, the upper half of a block. -/
theorem entry_layer_high (pair : Fin blocks → Int16 → Int16 → Int16 × Int16) (x : Coeffs (blocks * (half + half)))
    (b : Fin blocks) (i : Fin half) :
    entry (Lane.layer pair x) (b * (half + half) + (half + i)) =
      (pair b (entry x (b * (half + half) + i)) (entry x (b * (half + half) + (half + i)))).2 := by
  have hi : half + i.val < half + half := by omega
  unfold Lane.layer
  rw [entry_flatten _ b.isLt hi, ← (halves_entry x b i).1, ← (halves_entry x b i).2]
  simp [Lane.pass]

/-! ## One butterfly -/

/-- The size a forward butterfly with a given twiddle factor can give to words of a given size: a Montgomery product is added to
them. -/
def butterflyGrowth (zeta : Int16) (bound : Nat) : Nat := bound + (zeta.toInt.natAbs * bound + 109084672) / 65536

/-- A scalar forward butterfly answers exactly if the difference and the sum have words, and then with what a lane computes. -/
theorem Scalar.forwardPair_eq_ok_iff {zeta low high : Int16} {r : Int16 × Int16} :
    Scalar.forwardPair zeta low high = .ok r ↔
      (-32768 ≤ low.toInt - (Lane.montgomeryMul zeta high).toInt ∧ low.toInt - (Lane.montgomeryMul zeta high).toInt < 32768) ∧
      (-32768 ≤ low.toInt + (Lane.montgomeryMul zeta high).toInt ∧ low.toInt + (Lane.montgomeryMul zeta high).toInt < 32768) ∧
      Lane.forwardPair zeta low high = r := by
  unfold Scalar.forwardPair Lane.forwardPair
  rw [montgomeryMul_eq_lane, ok_bind]
  simp only [bind_eq_ok_iff, Word.sub16_eq_ok_iff, Word.add16_eq_ok_iff]
  constructor
  · rintro ⟨_, ⟨hsub, rfl⟩, _, ⟨hadd, rfl⟩, h⟩
    exact ⟨hsub, hadd, Except.ok.inj h⟩
  · rintro ⟨hsub, hadd, rfl⟩
    exact ⟨_, ⟨hsub, rfl⟩, _, ⟨hadd, rfl⟩, rfl⟩

/-- A scalar inverse butterfly answers exactly if the sum and the difference have words, and then with what a lane computes. -/
theorem Scalar.inversePair_eq_ok_iff {zeta low high : Int16} {r : Int16 × Int16} :
    Scalar.inversePair zeta low high = .ok r ↔
      (-32768 ≤ low.toInt + high.toInt ∧ low.toInt + high.toInt < 32768) ∧
      (-32768 ≤ high.toInt - low.toInt ∧ high.toInt - low.toInt < 32768) ∧ Lane.inversePair zeta low high = r := by
  unfold Scalar.inversePair Lane.inversePair
  simp only [bind_eq_ok_iff, Word.sub16_eq_ok_iff, Word.add16_eq_ok_iff, (barrettReduce_spec _).1, montgomeryMul_eq_lane]
  constructor
  · rintro ⟨_, ⟨hadd, rfl⟩, _, hreduced, _, ⟨hsub, rfl⟩, _, hscaled, h⟩
    rw [← Except.ok.inj hreduced, ← Except.ok.inj hscaled] at h
    exact ⟨hadd, hsub, Except.ok.inj h⟩
  · rintro ⟨hadd, hsub, rfl⟩
    exact ⟨_, ⟨hadd, rfl⟩, _, rfl, _, ⟨hsub, rfl⟩, _, rfl, rfl⟩

/-- A forward butterfly on words that stay inside 16 bits: the scalar one answers with what a lane computes, the two words
grow as `butterflyGrowth` says, and their classes are sum and difference with a multiple by the root. -/
theorem forwardPair_spec {zeta low high : Int16} {root : ZMod 3329} {bound : Nat} (hzeta : residue zeta = root * 65536)
    (hlow : low.toInt.natAbs ≤ bound) (hhigh : high.toInt.natAbs ≤ bound) (hbound : butterflyGrowth zeta bound ≤ 32767) :
    Scalar.forwardPair zeta low high = .ok (Lane.forwardPair zeta low high) ∧
      (Lane.forwardPair zeta low high).1.toInt.natAbs ≤ butterflyGrowth zeta bound ∧
      (Lane.forwardPair zeta low high).2.toInt.natAbs ≤ butterflyGrowth zeta bound ∧
      residue (Lane.forwardPair zeta low high).1 = residue low + root * residue high ∧
      residue (Lane.forwardPair zeta low high).2 = residue low - root * residue high := by
  unfold butterflyGrowth at hbound ⊢
  rw [Scalar.forwardPair_eq_ok_iff]
  unfold Lane.forwardPair
  have hsize := natAbs_montgomeryMul_le (Nat.le_refl zeta.toInt.natAbs) hhigh
  have hclass : residue (Lane.montgomeryMul zeta high) = root * residue high := by
    apply eq_of_mul_radix_eq
    rw [residue_montgomeryMul, hzeta]
    ring
  dsimp only
  generalize Lane.montgomeryMul zeta high = t at hsize hclass
  have hsub : -32768 ≤ low.toInt - t.toInt ∧ low.toInt - t.toInt < 32768 := by omega
  have hadd : -32768 ≤ low.toInt + t.toInt ∧ low.toInt + t.toInt < 32768 := by omega
  rw [← hclass]
  refine ⟨⟨hsub, hadd, rfl⟩, ?_, ?_, ?_, ?_⟩
  · rw [Word.toInt_add16 hadd]
    omega
  · rw [Word.toInt_sub16 hsub]
    omega
  · simp only [residue, Word.toInt_add16 hadd, Int.cast_add]
  · simp only [residue, Word.toInt_sub16 hsub, Int.cast_sub]

/-- An inverse butterfly on words whose sum stays inside 16 bits: the scalar one answers with what a lane computes, the two
words are small again, and their classes are the sum, and the difference times the root. -/
theorem inversePair_spec {zeta low high : Int16} {root : ZMod 3329} (hzeta : residue zeta = root * 65536)
    (hsmall : zeta.toInt.natAbs ≤ 1664) (hlow : low.toInt.natAbs ≤ 16383) (hhigh : high.toInt.natAbs ≤ 16383) :
    Scalar.inversePair zeta low high = .ok (Lane.inversePair zeta low high) ∧
      (Lane.inversePair zeta low high).1.toInt.natAbs ≤ 16383 ∧
      (Lane.inversePair zeta low high).2.toInt.natAbs ≤ 16383 ∧
      residue (Lane.inversePair zeta low high).1 = residue low + residue high ∧
      residue (Lane.inversePair zeta low high).2 = root * (residue high - residue low) := by
  have hadd : -32768 ≤ low.toInt + high.toInt ∧ low.toInt + high.toInt < 32768 := by omega
  have hsub : -32768 ≤ high.toInt - low.toInt ∧ high.toInt - low.toInt < 32768 := by omega
  have hdiff : (high - low).toInt.natAbs ≤ 32766 := by
    rw [Word.toInt_sub16 hsub]
    omega
  obtain ⟨-, hreduced, -⟩ := barrettReduce_spec (low + high)
  have hscaled := natAbs_montgomeryMul_le hsmall hdiff
  rw [Scalar.inversePair_eq_ok_iff]
  unfold Lane.inversePair
  dsimp only
  refine ⟨⟨hadd, hsub, rfl⟩, by omega, by omega, ?_, ?_⟩
  · rw [residue_barrettReduce]
    simp only [residue, Word.toInt_add16 hadd, Int.cast_add]
  · apply eq_of_mul_radix_eq
    rw [residue_montgomeryMul, hzeta]
    simp only [residue, Word.toInt_sub16 hsub, Int.cast_sub]
    ring

end ModuleLattice
