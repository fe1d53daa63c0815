import ModuleLattice.Proofs.Layer

/-!
# Passes in place

A pass is defined pair by pair. A machine runs it in place: it takes whole vectors of pairs from the two halves, one after the
other from the front, and writes each back before it takes the next; the pairs that are left over it takes one by one through
the checked formula. `sweep` is that loop, and `sweep_eq_pass` says that it is the pass, for every number of lanes and every
length: each pair is taken exactly once and is untouched until then. What follows for the two butterflies is
`butterflies_in_vectors`: wrapping in the vectors, stopping in the rest, and no difference where nothing overflows.
-/

namespace ModuleLattice

namespace Butterfly

variable {n lanes : Nat}

/-! ## The loops -/

/-- Place `j` of a vector that fits the array at place `i`. -/
theorem place_lt {i : Nat} (h : i + lanes ≤ n) (j : Fin lanes) : i + j.val < n := by
  have := j.isLt
  omega

/-- The entries from place `i` on, as many as there are lanes. -/
def load (x : Coeffs n) {i : Nat} (h : i + lanes ≤ n) : Coeffs lanes := Vector.ofFn fun j => x.get ⟨i + j.val, place_lt h j⟩

/-- A place of the array inside a vector at place `i`, as a place of the vector. -/
theorem lane_of_place {i k : Nat} (h : i ≤ k ∧ k < i + lanes) : k - i < lanes := by
  omega

/-- A vector written over the entries from place `i` on. -/
def store (x : Coeffs n) (i : Nat) (v : Coeffs lanes) : Coeffs n :=
  Vector.ofFn fun k => if h : i ≤ k.val ∧ k.val < i + lanes then v.get ⟨k.val - i, lane_of_place h⟩ else x.get k

/-- A vector of each half taken through the lane formula. -/
def vectorStep (lane : Int16 → Int16 → Int16 × Int16) {i : Nat} (h : i + lanes ≤ n) (x : Coeffs n × Coeffs n) :
    Coeffs n × Coeffs n :=
  let pairs := Vector.zipWith lane (load x.1 h) (load x.2 h)
  (store x.1 i (pairs.map Prod.fst), store x.2 i (pairs.map Prod.snd))

theorem last_fits {k : Nat} (h : (k + 1) * lanes ≤ n) : k * lanes + lanes ≤ n := (Nat.succ_mul k lanes).symm.trans_le h

theorem front_fits {k : Nat} (h : (k + 1) * lanes ≤ n) : k * lanes ≤ n := (Nat.le_add_right _ _).trans (last_fits h)

/-- The first `k` vectors, one after the other from the front. -/
def vectorLoop (lane : Int16 → Int16 → Int16 × Int16) : (k : Nat) → k * lanes ≤ n → Coeffs n × Coeffs n → Coeffs n × Coeffs n
  | 0, _, x => x
  | k + 1, h, x => vectorStep lane (last_fits h) (vectorLoop lane k (front_fits h) x)

/-- One pair taken through the checked formula. -/
def scalarStep (scalar : Int16 → Int16 → Except Fault (Int16 × Int16)) (i : Fin n) (x : Coeffs n × Coeffs n) :
    Except Fault (Coeffs n × Coeffs n) := do
  let (low, high) ← scalar (x.1.get i) (x.2.get i)
  return (x.1.set i.val low i.isLt, x.2.set i.val high i.isLt)

/-- The pairs from place `i` on, one after the other. -/
def scalarLoop (scalar : Int16 → Int16 → Except Fault (Int16 × Int16)) (i : Nat) (x : Coeffs n × Coeffs n) :
    Except Fault (Coeffs n × Coeffs n) :=
  if h : i < n then do
    let x ← scalarStep scalar ⟨i, h⟩ x
    scalarLoop scalar (i + 1) x
  else .ok x
termination_by n - i

/-- As many whole vectors as there are, then the pairs that are left. -/
def sweep (lanes : Nat) (lane : Int16 → Int16 → Int16 × Int16) (scalar : Int16 → Int16 → Except Fault (Int16 × Int16))
    (x : Coeffs n × Coeffs n) : Except Fault (Coeffs n × Coeffs n) :=
  scalarLoop scalar (vectorPart lanes n) (vectorLoop lane (n / lanes) (Nat.div_mul_le_self n lanes) x)

/-! ## The loops, pair by pair -/

section

variable (lane : Int16 → Int16 → Int16 × Int16) (scalar : Int16 → Int16 → Except Fault (Int16 × Int16))

/-- A vector step takes the pairs of its vector through the lane formula and leaves the others. -/
theorem pairAt_vectorStep {i : Nat} (h : i + lanes ≤ n) (x : Coeffs n × Coeffs n) (k : Fin n) :
    pairAt (vectorStep lane h x) k =
      if i ≤ k.val ∧ k.val < i + lanes then lane (x.1.get k) (x.2.get k) else pairAt x k := by
  unfold pairAt vectorStep store load
  simp only [get_ofFn]
  by_cases hk : i ≤ k.val ∧ k.val < i + lanes
  · have hplace : i + (k.val - i) = k.val := Nat.add_sub_cancel' hk.1
    simp [hk, hplace]
  · simp [hk]

/-- The first vectors take the pairs in front through the lane formula, each of them once, and leave the others. -/
theorem pairAt_vectorLoop {k : Nat} (h : k * lanes ≤ n) (x : Coeffs n × Coeffs n) (i : Fin n) :
    pairAt (vectorLoop lane k h x) i = if i.val < k * lanes then lane (x.1.get i) (x.2.get i) else pairAt x i := by
  induction k with
  | zero => rw [vectorLoop, if_neg (by omega)]
  | succ k ih =>
    have hpair := ih (front_fits h)
    rw [vectorLoop, pairAt_vectorStep, Nat.succ_mul]
    by_cases hfront : i.val < k * lanes
    · rw [if_neg (by omega), if_pos (by omega), hpair, if_pos hfront]
    · rw [if_neg hfront] at hpair
      obtain ⟨hlow, hhigh⟩ := Prod.mk.inj hpair
      by_cases hlast : i.val < k * lanes + lanes
      · rw [if_pos ⟨by omega, hlast⟩, if_pos hlast, hlow, hhigh]
      · rw [if_neg (by omega), if_neg hlast, hpair]

/-- The loop over the pairs from a place on is the pass that leaves the pairs before it. -/
theorem scalarLoop_eq_pass (i : Nat) (x : Coeffs n × Coeffs n) : scalarLoop scalar i x = pass i Prod.mk scalar x.1 x.2 := by
  fun_induction scalarLoop scalar i x with
  | case1 i x hi ih =>
    cases hpair : scalar (x.1.get ⟨i, hi⟩) (x.2.get ⟨i, hi⟩) with
    | error e =>
      have hstep : scalarStep scalar ⟨i, hi⟩ x = .error e := by rw [scalarStep, hpair, error_bind]
      rw [hstep, error_bind]
      refine (pass_eq_error_iff.2 ⟨⟨i, hi⟩, le_rfl, hpair, ?_⟩).symm
      intro j hj hle
      exact absurd hle (Nat.not_le_of_lt hj)
    | ok r =>
      have hstep : scalarStep scalar ⟨i, hi⟩ x = .ok (x.1.set i r.1 hi, x.2.set i r.2 hi) := by
        rw [scalarStep, hpair, ok_bind]
        rfl
      rw [hstep, ok_bind, ih]
      refine pass_congr fun j => ?_
      simp only [passAt, get_eq_getElem, Vector.getElem_set]
      rcases Nat.lt_trichotomy j.val i with hlt | rfl | hgt
      · have hle : j.val < i + 1 := Nat.lt_succ_of_lt hlt
        simp [hlt, hle, hlt.ne']
      · simpa using hpair.symm
      · have hnlt : ¬j.val < i := hgt.le.not_gt
        have hnle : ¬j.val < i + 1 := Nat.not_lt_of_le hgt
        simp [hnlt, hnle, hgt.ne]
  | case2 i x hi =>
    refine (pass_eq_ok_iff.2 fun j => ?_).symm
    have hj : j.val < i := j.isLt.trans_le (Nat.le_of_not_lt hi)
    rw [passAt, if_pos hj, pairAt]

/-- The whole vectors end where the pairs that are left begin. -/
theorem vectors_end (lanes n : Nat) : n / lanes * lanes = vectorPart lanes n := by
  have hsplit := Nat.div_add_mod' n lanes
  unfold vectorPart
  omega

/-- Whole vectors from the front and then the rest, in place, are the pass whose wide part is the vectors. -/
theorem sweep_eq_pass (lanes : Nat) (x : Coeffs n × Coeffs n) :
    sweep lanes lane scalar x = pass (vectorPart lanes n) lane scalar x.1 x.2 := by
  unfold sweep
  rw [scalarLoop_eq_pass]
  refine pass_congr fun i => ?_
  have hpair := pairAt_vectorLoop lane (Nat.div_mul_le_self n lanes) x i
  rw [vectors_end] at hpair
  unfold passAt
  by_cases hi : i.val < vectorPart lanes n
  · rw [if_pos hi] at hpair
    rw [if_pos hi, if_pos hi]
    exact congrArg Except.ok hpair
  · rw [if_neg hi] at hpair
    obtain ⟨hlow, hhigh⟩ := Prod.mk.inj hpair
    rw [if_neg hi, if_neg hi, hlow, hhigh]

end

/-! ## What the vectors change -/

/-- How a pass in vectors compares with the checked formula, applied to one pair after the other. -/
structure RunsInVectors (lanes : Nat) (scalar : Int16 → Int16 → Except Fault (Int16 × Int16))
    (wraps : Int16 → Int16 → Int16 × Int16 → Prop) (x : Coeffs n × Coeffs n) (outcome : Except Fault (Coeffs n × Coeffs n)) :
    Prop where
  /-- If the checked formula answers everywhere, its halves are the outcome. -/
  of_scalar : ∀ y, scalarLoop scalar 0 x = .ok y → outcome = .ok y
  /-- The pass stops exactly if the checked formula overflows at a place behind the last whole vector. -/
  stops_iff : (∃ e, outcome = .error e) ↔
    ∃ (operation : WordOperation) (i : Fin n), n - n % lanes ≤ i.val ∧ scalar (x.1.get i) (x.2.get i) = .error (.overflow operation)
  /-- The fault is the first overflow there. -/
  first_overflow : ∀ e, outcome = .error e → ∃ i : Fin n, n - n % lanes ≤ i.val ∧ scalar (x.1.get i) (x.2.get i) = .error e ∧
    ∀ j < i, n - n % lanes ≤ j.val → ∃ r, scalar (x.1.get j) (x.2.get j) = .ok r
  /-- If the pass answers, every pair is what the formula makes of it when its sums wrap. -/
  wraps : ∀ y, outcome = .ok y → ∀ i, wraps (x.1.get i) (x.2.get i) (pairAt y i)
  /-- Every pair behind the last whole vector is then the answer of the checked formula. -/
  checked : ∀ y, outcome = .ok y → ∀ i : Fin n, n - n % lanes ≤ i.val → scalar (x.1.get i) (x.2.get i) = .ok (pairAt y i)

/-- A sweep runs in vectors as soon as its lane formula is the wrapping one, and its checked formula can only overflow and answers
otherwise with what a lane computes. -/
theorem runsInVectors {lane : Int16 → Int16 → Int16 × Int16} {scalar : Int16 → Int16 → Except Fault (Int16 × Int16)}
    {wraps : Int16 → Int16 → Int16 × Int16 → Prop} (hwraps : ∀ low high, wraps low high (lane low high))
    (hlane : ∀ {low high r}, scalar low high = .ok r → lane low high = r)
    (hfault : ∀ {low high e}, scalar low high = .error e → ∃ operation, e = .overflow operation)
    (lanes : Nat) (x : Coeffs n × Coeffs n) : RunsInVectors lanes scalar wraps x (sweep lanes lane scalar x) := by
  have hok {y : Coeffs n × Coeffs n} (h : sweep lanes lane scalar x = .ok y) (i : Fin n) :
      lane (x.1.get i) (x.2.get i) = pairAt y i ∧
        (vectorPart lanes n ≤ i.val → scalar (x.1.get i) (x.2.get i) = .ok (pairAt y i)) := by
    rw [sweep_eq_pass, pass_eq_ok_iff] at h
    by_cases hi : i.val < vectorPart lanes n
    · exact ⟨Except.ok.inj ((if_pos hi).symm.trans (h i)), fun hle => absurd hi (Nat.not_lt_of_le hle)⟩
    · have hscalar : scalar (x.1.get i) (x.2.get i) = .ok (pairAt y i) := (if_neg hi).symm.trans (h i)
      exact ⟨hlane hscalar, fun _ => hscalar⟩
  have hfirst {e : Fault} (h : sweep lanes lane scalar x = .error e) :=
    pass_eq_error_iff.1 ((sweep_eq_pass lane scalar lanes x).symm.trans h)
  constructor
  case of_scalar =>
    intro y h
    rw [scalarLoop_eq_pass, pass_eq_ok_iff] at h
    rw [sweep_eq_pass, pass_eq_ok_iff]
    intro i
    have hscalar : scalar (x.1.get i) (x.2.get i) = .ok (pairAt y i) := h i
    by_cases hi : i.val < vectorPart lanes n
    · rw [passAt, if_pos hi, hlane hscalar]
    · rw [passAt, if_neg hi, hscalar]
  case stops_iff =>
    constructor
    · rintro ⟨e, h⟩
      obtain ⟨i, hi, hstop, -⟩ := hfirst h
      obtain ⟨operation, rfl⟩ := hfault hstop
      exact ⟨operation, i, hi, hstop⟩
    · rintro ⟨operation, i, hi, hstop⟩
      cases h : sweep lanes lane scalar x with
      | error e => exact ⟨e, rfl⟩
      | ok y =>
        rw [(hok h i).2 hi] at hstop
        cases hstop
  case first_overflow =>
    intro e h
    exact hfirst h
  case wraps =>
    intro y h i
    rw [← (hok h i).1]
    exact hwraps _ _
  case checked =>
    intro y h i hi
    exact (hok h i).2 hi

/-- The forward formula with its sum and its difference taken modulo `2 ^ 16`. -/
def WrapsForward (zeta low high : Int16) (r : Int16 × Int16) : Prop :=
  ∃ t, montgomeryMul zeta high = .ok t ∧
    r.1.toInt = (low.toInt + t.toInt).bmod (2 ^ 16) ∧ r.2.toInt = (low.toInt - t.toInt).bmod (2 ^ 16)

/-- The inverse formula with its sum and its difference taken modulo `2 ^ 16`. -/
def WrapsInverse (zeta low high : Int16) (r : Int16 × Int16) : Prop :=
  ∃ sum difference : Int16, sum.toInt = (low.toInt + high.toInt).bmod (2 ^ 16) ∧
    difference.toInt = (high.toInt - low.toInt).bmod (2 ^ 16) ∧
    barrettReduce sum = .ok r.1 ∧ montgomeryMul zeta difference = .ok r.2

theorem wrapsForward (zeta low high : Int16) : WrapsForward zeta low high (Lane.forwardPair zeta low high) :=
  ⟨_, montgomeryMul_eq_lane zeta high, Int16.toInt_add _ _, Int16.toInt_sub _ _⟩

theorem wrapsInverse (zeta low high : Int16) : WrapsInverse zeta low high (Lane.inversePair zeta low high) :=
  ⟨low + high, high - low, Int16.toInt_add _ _, Int16.toInt_sub _ _, (barrettReduce_spec _).1, montgomeryMul_eq_lane _ _⟩

/-- The forward formula stops by overflow only: the check inside its product always passes. -/
theorem overflow_of_forwardPair {zeta low high : Int16} {e : Fault} (h : Scalar.forwardPair zeta low high = .error e) :
    ∃ operation, e = .overflow operation := by
  unfold Scalar.forwardPair at h
  rw [montgomeryMul_eq_lane, ok_bind] at h
  rcases bind_eq_error_iff.1 h with hsub | ⟨_, _, h⟩
  · exact ⟨_, (Word.fit16_eq_error_iff.1 hsub).2.symm⟩
  rcases bind_eq_error_iff.1 h with hadd | ⟨_, _, hreturn⟩
  · exact ⟨_, (Word.fit16_eq_error_iff.1 hadd).2.symm⟩
  · cases hreturn

/-- The inverse formula stops by overflow only: neither of its reductions refuses a word. -/
theorem overflow_of_inversePair {zeta low high : Int16} {e : Fault} (h : Scalar.inversePair zeta low high = .error e) :
    ∃ operation, e = .overflow operation := by
  unfold Scalar.inversePair at h
  rcases bind_eq_error_iff.1 h with hadd | ⟨_, _, h⟩
  · exact ⟨_, (Word.fit16_eq_error_iff.1 hadd).2.symm⟩
  rw [(barrettReduce_spec _).1, ok_bind] at h
  rcases bind_eq_error_iff.1 h with hsub | ⟨_, _, h⟩
  · exact ⟨_, (Word.fit16_eq_error_iff.1 hsub).2.symm⟩
  rw [montgomeryMul_eq_lane, ok_bind] at h
  cases h

/-- The two butterflies on two halves of any length, in vectors of any number of lanes. What the machine does in place is the pass. If
no scalar butterfly overflows, the outcome is that of the scalar loop. It stops exactly if one of the pairs behind the last whole vector
overflows; if none does, every other pair is what the scalar butterfly makes of it with its sums taken modulo `2 ^ 16`. -/
theorem butterflies_in_vectors (lanes : Nat) (zeta : Int16) (low high : Coeffs n) :
    (forward (vectorPart lanes n) zeta low high = sweep lanes (Lane.forwardPair zeta) (Scalar.forwardPair zeta) (low, high) ∧
      RunsInVectors lanes (Scalar.forwardPair zeta) (WrapsForward zeta) (low, high) (forward (vectorPart lanes n) zeta low high)) ∧
    (inverse (vectorPart lanes n) zeta low high = sweep lanes (Lane.inversePair zeta) (Scalar.inversePair zeta) (low, high) ∧
      RunsInVectors lanes (Scalar.inversePair zeta) (WrapsInverse zeta) (low, high) (inverse (vectorPart lanes n) zeta low high)) := by
  have hforward : sweep lanes (Lane.forwardPair zeta) (Scalar.forwardPair zeta) (low, high) =
      forward (vectorPart lanes n) zeta low high := sweep_eq_pass _ _ lanes (low, high)
  have hinverse : sweep lanes (Lane.inversePair zeta) (Scalar.inversePair zeta) (low, high) =
      inverse (vectorPart lanes n) zeta low high := sweep_eq_pass _ _ lanes (low, high)
  rw [← hforward, ← hinverse]
  refine ⟨⟨rfl, ?_⟩, rfl, ?_⟩
  · exact runsInVectors (wrapsForward zeta) (fun h => (Scalar.forwardPair_eq_ok_iff.1 h).2.2) overflow_of_forwardPair lanes _
  · exact runsInVectors (wrapsInverse zeta) (fun h => (Scalar.inversePair_eq_ok_iff.1 h).2.2) overflow_of_inversePair lanes _

-- Two lanes, three pairs. The same sum beyond the word wraps in the vector and stops the pass behind it.
example : forward (vectorPart 2 3) 1 #v[32767, 0, 0] #v[2285, 0, 2285] = .ok (#v[-32768, 0, 1], #v[32766, 0, -1]) := by cbv

example : forward (vectorPart 2 3) 1 #v[0, 0, 32767] #v[2285, 0, 2285] = .error (.overflow .add) := by cbv

end Butterfly

end ModuleLattice
