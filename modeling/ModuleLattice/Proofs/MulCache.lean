import ModuleLattice.Product.Wide
import ModuleLattice.Proofs.Shuffle

/-!
# The multiplication cache, lane by lane

A step of the lane products takes as many groups of coefficients as a vector has lanes. `place_in_steps` gives every place of
an array its step and its lane, so that what the vectors compute can be read off entry by entry; `step_place` counts the
groups through all steps. Read that way, the cache is the same array on every backend, for all coefficients whatever: each
pair has one Montgomery product, by the root of the pair.
-/

namespace ModuleLattice

/-! ## Places in the lanes -/

/-- Two arrays with the same entries are the same. -/
theorem eq_of_entries {n : Nat} {x y : Coeffs n} (h : ∀ i < n, entry x i = entry y i) : x = y := by
  ext i hi
  rw [← entry_eq_getElem x hi, ← entry_eq_getElem y hi, h i hi]

/-- Renaming the length moves no entry. -/
theorem entry_cast {n m : Nat} (h : n = m) (x : Coeffs n) (i : Nat) : entry (x.cast h) i = entry x i := by
  subst h
  rfl

/-- Entry `m` of group `i`. -/
theorem get_block {groups size : Nat} (x : Coeffs (groups * size)) (i : Fin groups) (m : Fin size) :
    (block groups size x i).get m = entry x (size * i + m) := by
  rw [← entry_eq_get, entry_block _ _ m.isLt, Nat.mul_comm size]

/-- The blocks of an array in sequence are the array. -/
theorem flatten_blocks {α : Type} {n m : Nat} (x : Vector α (n * m)) : (Vector.ofFn fun b => block n m x b).flatten = x := by
  ext t ht
  have hm : 0 < m := Nat.pos_of_ne_zero fun h => by simp [h] at ht
  rw [Vector.getElem_flatten, Vector.getElem_ofFn, getElem_block]
  simp only [Nat.div_add_mod']

/-- Blocks in sequence are a given array exactly if they are its blocks. -/
theorem flatten_eq_iff {α : Type} {n m : Nat} {blocks : Vector (Vector α m) n} {x : Vector α (n * m)} :
    blocks.flatten = x ↔ ∀ b : Fin n, blocks.get b = block n m x b := by
  constructor
  · rintro rfl b
    ext j hj
    rw [getElem_block, Vector.getElem_flatten]
    simp [Nat.mul_add_div (Nat.zero_lt_of_lt hj), Nat.mul_comm, Nat.mod_eq_of_lt hj, Nat.div_eq_of_lt hj]
  · intro h
    rw [← flatten_blocks x]
    exact congrArg Vector.flatten (eq_iff_get.2 fun b => (h b).trans (get_ofFn _ b).symm)

/-- A loop over blocks answers with an array exactly if its steps answer with the blocks. -/
theorem flatten_ofFnM_eq_ok_iff {α : Type} {n m : Nat} {step : Fin n → Except Fault (Vector α m)} {x : Vector α (n * m)} :
    (Vector.ofFnM step >>= fun blocks => pure blocks.flatten) = .ok x ↔ ∀ b : Fin n, step b = .ok (block n m x b) := by
  rw [bind_eq_ok_iff]
  constructor
  · rintro ⟨blocks, hblocks, h⟩ b
    exact flatten_eq_iff.1 (Except.ok.inj h) b ▸ ofFnM_eq_ok_iff.1 hblocks b
  · intro h
    refine ⟨Vector.ofFn fun b => block n m x b, ofFnM_eq_ok_iff.2 fun b => ?_, congrArg Except.ok (flatten_blocks x)⟩
    rw [get_ofFn]
    exact h b

/-- Group `i` of step `s`, counted through all steps. -/
theorem step_place (size lanes s i m : Nat) : s * (size * lanes) + (size * i + m) = size * (s * lanes + i) + m := by
  ring

/-- Every place of 64 groups of a size belongs to one lane of one step. -/
theorem place_in_steps (w : LaneWidth) (size : Nat) {t : Nat} (hsize : 0 < size) (ht : t < size * 64) :
    ∃ (s : Fin w.steps) (i : Fin w.lanes) (m : Fin size), t = size * (s * w.lanes + i) + m := by
  have hlanes : 0 < w.lanes := by cases w <;> decide
  have hall : w.lanes * w.steps = 64 := by cases w <;> rfl
  have hgroup : t / size < w.lanes * w.steps := by
    rw [hall]
    exact Nat.div_lt_of_lt_mul ht
  refine ⟨⟨t / size / w.lanes, Nat.div_lt_of_lt_mul hgroup⟩, ⟨t / size % w.lanes, Nat.mod_lt _ hlanes⟩,
    ⟨t % size, Nat.mod_lt _ hsize⟩, ?_⟩
  simp only [Nat.div_add_mod']
  rw [Nat.div_add_mod]

/-- An entry of the results of all steps, put in sequence. -/
theorem entry_steps (w : LaneWidth) {size : Nat} (parts : Vector (Coeffs (size * w.lanes)) w.steps) {total : Nat}
    (h : w.steps * (size * w.lanes) = total) (s : Fin w.steps) (i : Fin w.lanes) (m : Fin size) :
    entry (parts.flatten.cast h) (size * (s * w.lanes + i) + m) = entry (parts.get s) (size * i + m) := by
  have hin : size * i.val + m.val < size * w.lanes := by
    rw [Nat.mul_comm, Nat.mul_comm size]
    exact block_index_lt i.isLt m.isLt
  rw [entry_cast, ← step_place, entry_flatten parts s.isLt hin, entry_eq_getElem _ hin]
  rfl

/-! ## The multiplication cache -/

/-- The root of pair `j` in Montgomery form: neighbouring pairs share an entry of the table and differ in the sign. -/
def pairTwiddle (j : Nat) : Int16 := if j % 2 = 0 then entry twiddles (64 + j / 2) else -entry twiddles (64 + j / 2)

/-- The negative of a twiddle factor is a word. -/
theorem neg16_twiddle {k : Nat} (hk : k < 128) : Word.neg16 twiddles[k] = .ok (-twiddles[k]) ∧
    (-twiddles[k]).toInt = -twiddles[k].toInt := by
  have hsmall := (twiddles_spec k hk).2
  have hfit : -32768 ≤ -twiddles[k].toInt ∧ -twiddles[k].toInt < 32768 := by omega
  exact ⟨Word.neg16_eq_ok_iff.2 ⟨hfit, rfl⟩, Word.toInt_neg16 hfit⟩

/-- The root of a pair is the root of the factor the pair is a remainder of. -/
theorem pairTwiddle_spec {j : Nat} (hj : j < 128) :
    residue (pairTwiddle j) = blockRoot 7 j * 65536 ∧ (pairTwiddle j).toInt.natAbs ≤ 1664 := by
  have hb : j / 2 < 2 ^ 6 := by omega
  have hk : 64 + j / 2 < 128 := by omega
  have hroot : residue twiddles[64 + j / 2] = splitRoot 6 (j / 2) * 65536 := residue_twiddle (by decide) hb hk
  have hsmall := (twiddles_spec _ hk).2
  unfold pairTwiddle
  rw [entry_eq_getElem _ hk]
  split
  · have hplace : j = 2 * (j / 2) := by omega
    refine ⟨?_, hsmall⟩
    conv_rhs => rw [hplace, blockRoot_left]
    exact hroot
  · have hplace : j = 2 * (j / 2) + 1 := by omega
    have hneg := (neg16_twiddle hk).2
    refine ⟨?_, by omega⟩
    conv_rhs => rw [hplace, blockRoot_right _ (by decide), neg_mul, ← hroot]
    unfold residue
    rw [hneg, Int.cast_neg]

/-- The multiplication cache with every product in a lane. -/
def Lane.mulCache (x : Coeffs 256) : Coeffs 128 :=
  Vector.ofFn fun j => Lane.montgomeryMul (entry x (2 * j + 1)) (pairTwiddle j)

/-- The two cache entries of a quadruple. -/
theorem entry_mulCache (x : Coeffs 256) {q : Nat} (hq : q < 64) :
    entry (Lane.mulCache x) (2 * q) = Lane.montgomeryMul (entry x (4 * q + 1)) (entry twiddles (64 + q)) ∧
      entry (Lane.mulCache x) (2 * q + 1) = Lane.montgomeryMul (entry x (4 * q + 3)) (-entry twiddles (64 + q)) := by
  have heven : 2 * (2 * q) + 1 = 4 * q + 1 ∧ 2 * q % 2 = 0 ∧ 2 * q / 2 = q := by omega
  have hodd : 2 * (2 * q + 1) + 1 = 4 * q + 3 ∧ ¬(2 * q + 1) % 2 = 0 ∧ (2 * q + 1) / 2 = q := by omega
  unfold Lane.mulCache pairTwiddle
  rw [entry_ofFn _ (by omega), entry_ofFn _ (by omega), heven.1, if_pos heven.2.1, heven.2.2, hodd.1, if_neg hodd.2.1, hodd.2.2]
  exact ⟨rfl, rfl⟩

/-- The scalar cache needs no range check: every Montgomery product exists. -/
theorem Scalar.mulCache_eq_lane (x : Coeffs 256) : Scalar.mulCache x = .ok (Lane.mulCache x) := by
  refine (@flatten_ofFnM_eq_ok_iff Int16 64 2 _ (Lane.mulCache x)).2 fun i => ?_
  have hk : 64 + i.val < 128 := by omega
  obtain ⟨heven, hodd⟩ := entry_mulCache x i.isLt
  dsimp only
  rw [montgomeryMul_eq_lane, ok_bind, (neg16_twiddle hk).1, ok_bind, montgomeryMul_eq_lane, ok_bind, get_block, get_block,
    ← entry_eq_getElem twiddles hk]
  refine congrArg Except.ok (Vector.ext fun m hm => ?_)
  obtain rfl | rfl : m = 0 ∨ m = 1 := by omega
  · exact heven.symm.trans (@get_block 64 2 (Lane.mulCache x) i 0).symm
  · exact hodd.symm.trans (@get_block 64 2 (Lane.mulCache x) i 1).symm

/-- The sorted quadruples of one step: lane `i` of vector `m` is an entry of the lane's quadruple. -/
theorem get_quadsAt (w : LaneWidth) (x : Coeffs 256) (s : Fin w.steps) (i : Fin w.lanes) (m : Fin 4) :
    ((deinterleaveQuads (Wide.quadsAt w x s)).get m).get i = entry x (4 * (s * w.lanes + i) + m) := by
  rw [← step_place, ← entry_cast w.quads_cover x, ← entry_block _ s (by omega), ← entry_eq_get]
  exact entry_deinterleaveQuads _ m i.isLt

/-- The sorted cache entries of one step. -/
theorem get_pairsAt (w : LaneWidth) (x : Coeffs 128) (s : Fin w.steps) (i : Fin w.lanes) :
    (deinterleavePairs (Wide.pairsAt w x s)).1.get i = entry x (2 * (s * w.lanes + i)) ∧
      (deinterleavePairs (Wide.pairsAt w x s)).2.get i = entry x (2 * (s * w.lanes + i) + 1) := by
  obtain ⟨heven, hodd⟩ := entry_deinterleavePairs (Wide.pairsAt w x s) i.isLt
  rw [← entry_eq_get, ← entry_eq_get, heven, hodd, Wide.pairsAt, entry_block _ s (by omega), entry_block _ s (by omega),
    entry_cast, entry_cast, step_place, ← Nat.add_zero (2 * i.val), step_place]
  exact ⟨rfl, rfl⟩

/-- The cache in vectors is the cache lane by lane. -/
theorem Wide.mulCache_eq_lane (w : LaneWidth) (x : Coeffs 256) : Wide.mulCache w x = Lane.mulCache x := by
  refine eq_of_entries ?_
  intro t ht
  obtain ⟨s, i, m, rfl⟩ := place_in_steps w 2 (by decide) ht
  have hq := w.lane_lt s i
  have hk : 64 + (s.val * w.lanes + i.val) < 128 := by omega
  have hzeta : (Vector.ofFn fun i : Fin w.lanes =>
      have := w.lane_lt s i
      twiddles[64 + (s.val * w.lanes + i.val)]).get i = entry twiddles (64 + (s.val * w.lanes + i.val)) := by
    rw [get_ofFn, entry_eq_getElem twiddles hk]
  obtain ⟨heven, hodd⟩ := entry_mulCache x hq
  unfold Wide.mulCache
  rw [entry_steps, get_ofFn]
  dsimp only
  rw [entry_interleavePairs _ _ (by omega)]
  match m with
  | 0 =>
    have hi : (2 * i.val + (0 : Fin 2).val) / 2 = i := by omega
    rw [if_pos (by omega), hi, entry_ofFn _ i.isLt]
    refine Eq.trans ?_ heven.symm
    exact congrArg₂ Lane.montgomeryMul (get_quadsAt w x s i 1) hzeta
  | 1 =>
    have hi : (2 * i.val + (1 : Fin 2).val) / 2 = i := by omega
    rw [if_neg (by omega), hi, entry_ofFn _ i.isLt]
    refine Eq.trans ?_ hodd.symm
    exact congrArg₂ Lane.montgomeryMul (get_quadsAt w x s i 3) (congrArg Neg.neg hzeta)

/-- Every backend computes the same cache, whatever the coefficients. -/
theorem Backend.mulCache_eq_lane (b : Backend) (x : Coeffs 256) : b.mulCache x = .ok (Lane.mulCache x) := by
  cases b with
  | reference => exact Scalar.mulCache_eq_lane x
  | simd w => exact congrArg Except.ok (Wide.mulCache_eq_lane w x)

/-- The cache is below the modulus, whatever the coefficients. -/
theorem atMost_mulCache (x : Coeffs 256) : AtMost 3328 (Lane.mulCache x) := by
  intro j hj
  unfold Lane.mulCache
  rw [entry_ofFn _ hj]
  exact (natAbs_montgomeryMul_le (Word.natAbs_toInt_le _) (pairTwiddle_spec hj).2).trans (by decide)

/-- The cache holds the odd coefficient of every pair times the root of the pair. -/
theorem residues_mulCache (x : Coeffs 256) {j : Nat} (hj : j < 128) :
    residues (Lane.mulCache x) j = residues x (2 * j + 1) * blockRoot 7 j := by
  apply eq_of_mul_radix_eq
  rw [residues, Lane.mulCache, entry_ofFn _ hj, residue_montgomeryMul, (pairTwiddle_spec hj).1, mul_assoc]
  rfl

end ModuleLattice
