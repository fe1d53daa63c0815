import ModuleLattice.Ring.Poly
import ModuleLattice.Proofs.Layer

/-!
# The forward transform

Two invariants run through the seven layers. `Sized l` bounds each block by `sizeAfter l`, which follows the growth along the
block's own path of twiddle factors; after the last layer every path stays below `2 ^ 14`, where a bound that only knows the
size of the largest twiddle factor does not. `Represents l q` says what the blocks mean: block `b` holds the remainder of the
polynomial `q` modulo the factor of that block. A layer carries both from `l` to `l + 1` (`forwardLayer_step`), and the
transform from `0` to `7` (`forward_spec`).
-/

namespace ModuleLattice

/-! ## Invariants -/

/-- The twiddle factor by which layer `l` splits block `b`. -/
def splitTwiddle (l b : Nat) : Int16 := centredWord (rootOfUnity ^ reverseBits 7 (2 ^ l + b) * 2 ^ 16 % 3329)

/-- How large the words of block `b` can be after `l` layers. -/
def sizeAfter : (l b : Nat) → Nat
  | 0, _ => 3328
  | l + 1, b => butterflyGrowth (splitTwiddle l (b / 2)) (sizeAfter l (b / 2))

/-- Every block is as small as its path of twiddle factors makes it. -/
def Sized {n : Nat} (l : Nat) (x : Coeffs n) : Prop :=
  ∀ b < 2 ^ l, ∀ m < 2 ^ (8 - l), (entry x (b * 2 ^ (8 - l) + m)).toInt.natAbs ≤ sizeAfter l b

/-- Every block holds the remainder of a polynomial modulo the factor of the block. -/
def Represents {n : Nat} (l : Nat) (q : Nat → ZMod 3329) (x : Coeffs n) : Prop :=
  ∀ b < 2 ^ l, ∀ m < 2 ^ (8 - l), residues x (b * 2 ^ (8 - l) + m) = remainder l q b m

/-- No path of twiddle factors leads to `2 ^ 14`. -/
theorem sizeAfter_le {l b : Nat} (hl : l ≤ 7) (hb : b < 2 ^ l) : sizeAfter l b ≤ 16180 := by
  have hall : ∀ l : Fin 8, ∀ b : Fin 128, sizeAfter l b ≤ 16180 := by
    decide +kernel
  have hb' : b < 128 := Nat.lt_of_lt_of_le hb (Nat.pow_le_pow_right (by decide) hl)
  exact hall ⟨l, by omega⟩ ⟨b, hb'⟩

/-- The twiddle factor of a block is the square root of the block's root, in Montgomery form. -/
theorem residue_splitTwiddle {l b : Nat} (hl : l ≤ 6) (hb : b < 2 ^ l) :
    residue (splitTwiddle l b) = splitRoot l b * 65536 := by
  have hpow : 2 ^ l ≤ 2 ^ 6 := Nat.pow_le_pow_right (by decide) hl
  have hk : 2 ^ l + b < 128 := by omega
  rw [← residue_twiddle hl hb hk]
  simp [twiddles, splitTwiddle]

/-- A layer carries the size of a block over to both its halves. -/
theorem sizeAfter_succ (l b : Nat) : sizeAfter (l + 1) b = butterflyGrowth (splitTwiddle l (b / 2)) (sizeAfter l (b / 2)) := rfl

/-- The blocks of layer `l + 1` are the left and the right halves of the blocks of layer `l`. -/
theorem halves_of_block {l blocks d : Nat} (hblocks : blocks = 2 ^ l) (hd : d < 2 ^ (l + 1)) :
    ∃ c < blocks, d = 2 * c ∨ d = 2 * c + 1 := by
  rw [pow_succ] at hd
  exact ⟨d / 2, by omega, by omega⟩

/-- Where the left half of a block begins, and where the right half does. -/
theorem half_offset (c half m : Nat) :
    2 * c * half + m = c * (half + half) + m ∧ (2 * c + 1) * half + m = c * (half + half) + (half + m) :=
  ⟨by ring, by ring⟩

/-! ## One layer -/

/-- The layer of the forward transform with every butterfly in a lane. -/
def Lane.forwardLayer (blocks half : Nat) (x : Coeffs (blocks * (half + half))) : Coeffs (blocks * (half + half)) :=
  Lane.layer (fun i => Lane.forwardPair (entry twiddles (blocks + i))) x

/-- A forward butterfly in block `c` of layer `l`. -/
theorem forwardPair_step {l c : Nat} (hl : l ≤ 6) (hc : c < 2 ^ l) {low high : Int16}
    (hlow : low.toInt.natAbs ≤ sizeAfter l c) (hhigh : high.toInt.natAbs ≤ sizeAfter l c) :
    Scalar.forwardPair (splitTwiddle l c) low high = .ok (Lane.forwardPair (splitTwiddle l c) low high) ∧
      (Lane.forwardPair (splitTwiddle l c) low high).1.toInt.natAbs ≤ sizeAfter (l + 1) (2 * c) ∧
      (Lane.forwardPair (splitTwiddle l c) low high).2.toInt.natAbs ≤ sizeAfter (l + 1) (2 * c + 1) ∧
      residue (Lane.forwardPair (splitTwiddle l c) low high).1 = residue low + splitRoot l c * residue high ∧
      residue (Lane.forwardPair (splitTwiddle l c) low high).2 = residue low - splitRoot l c * residue high := by
  have hleft : sizeAfter (l + 1) (2 * c) = butterflyGrowth (splitTwiddle l c) (sizeAfter l c) := by
    rw [sizeAfter_succ, show 2 * c / 2 = c by omega]
  have hright : sizeAfter (l + 1) (2 * c + 1) = butterflyGrowth (splitTwiddle l c) (sizeAfter l c) := by
    rw [sizeAfter_succ, show (2 * c + 1) / 2 = c by omega]
  have hgrow := sizeAfter_le (l := l + 1) (b := 2 * c) (by omega) (by rw [pow_succ]; omega)
  rw [hleft] at hgrow
  rw [hleft, hright]
  exact forwardPair_spec (residue_splitTwiddle hl hc) hlow hhigh (by omega)

/-- A layer answers on words that are as small as their path makes them, and carries both invariants on. -/
theorem forwardLayer_step (b : Backend) (l blocks half : Nat) (hl : l ≤ 6) (hblocks : blocks = 2 ^ l)
    (hhalf : half = 2 ^ (7 - l)) (hb : blocks ≤ 64) {q : Nat → ZMod 3329} {x : Coeffs (blocks * (half + half))} (hsize : Sized l x)
    (hrep : Represents l q x) :
    forwardLayer b blocks half hb x = .ok (Lane.forwardLayer blocks half x) ∧
      Sized (l + 1) (Lane.forwardLayer blocks half x) ∧ Represents (l + 1) q (Lane.forwardLayer blocks half x) := by
  have hlen : 2 ^ (8 - l) = half + half := by
    rw [hhalf, ← two_mul, ← pow_succ', show 7 - l + 1 = 8 - l by omega]
  have hnext : 2 ^ (8 - (l + 1)) = half := by
    rw [hhalf, show 8 - (l + 1) = 7 - l by omega]
  have hroot : ∀ c : Fin blocks, entry twiddles (blocks + c) = splitTwiddle l c := by
    intro c
    rw [entry_eq_getElem twiddles (by omega)]
    simp [twiddles, splitTwiddle, hblocks]
  unfold Sized at hsize ⊢
  unfold Represents at hrep ⊢
  rw [hlen, ← hblocks] at hsize hrep
  rw [hnext]
  have hpair := fun (c : Fin blocks) (i : Fin half) =>
    forwardPair_step hl (hblocks ▸ c.isLt) (hsize c c.isLt i (by omega)) (hsize c c.isLt (half + i) (by omega))
  have hleft : ∀ (c : Fin blocks) (i : Fin half), entry (Lane.forwardLayer blocks half x) (c * (half + half) + i) =
      (Lane.forwardPair (splitTwiddle l c) (entry x (c * (half + half) + i)) (entry x (c * (half + half) + (half + i)))).1 := by
    intro c i
    rw [Lane.forwardLayer, entry_layer_low, hroot]
  have hright : ∀ (c : Fin blocks) (i : Fin half), entry (Lane.forwardLayer blocks half x) (c * (half + half) + (half + i)) =
      (Lane.forwardPair (splitTwiddle l c) (entry x (c * (half + half) + i)) (entry x (c * (half + half) + (half + i)))).2 := by
    intro c i
    rw [Lane.forwardLayer, entry_layer_high, hroot]
  refine ⟨?_, ?_, ?_⟩
  · have htable : (fun c : Fin blocks => twiddles[blocks + c.val]) = fun c : Fin blocks => entry twiddles (blocks + c) :=
      funext fun c => (entry_eq_getElem twiddles (by omega)).symm
    unfold forwardLayer
    rw [htable]
    refine layer_eq_lane ?_
    intro c i _
    rw [hroot]
    exact (hpair c i).1
  · intro d hd m hm
    rcases halves_of_block hblocks hd with ⟨c, hc, rfl | rfl⟩
    · rw [(half_offset c half m).1, hleft ⟨c, hc⟩ ⟨m, hm⟩]
      exact (hpair ⟨c, hc⟩ ⟨m, hm⟩).2.1
    · rw [(half_offset c half m).2, hright ⟨c, hc⟩ ⟨m, hm⟩]
      exact (hpair ⟨c, hc⟩ ⟨m, hm⟩).2.2.1
  · intro d hd m hm
    rcases halves_of_block hblocks hd with ⟨c, hc, rfl | rfl⟩
    · rw [(half_offset c half m).1, remainder_left hl, ← hrep c hc m (by omega), ← hhalf, ← hrep c hc (half + m) (by omega),
        residues, hleft ⟨c, hc⟩ ⟨m, hm⟩]
      exact (hpair ⟨c, hc⟩ ⟨m, hm⟩).2.2.2.1
    · rw [(half_offset c half m).2, remainder_right hl, ← hrep c hc m (by omega), ← hhalf, ← hrep c hc (half + m) (by omega),
        residues, hright ⟨c, hc⟩ ⟨m, hm⟩]
      exact (hpair ⟨c, hc⟩ ⟨m, hm⟩).2.2.2.2

/-! ## All seven layers -/

/-- The forward transform with every butterfly in a lane. -/
def Lane.forward (x : Coeffs 256) : Coeffs 256 :=
  let x := Lane.forwardLayer 1 128 x
  let x := Lane.forwardLayer 2 64 x
  let x := Lane.forwardLayer 4 32 x
  let x := Lane.forwardLayer 8 16 x
  let x := Lane.forwardLayer 16 8 x
  let x := Lane.forwardLayer 32 4 x
  Lane.forwardLayer 64 2 x

/-- The forward transform of words below the modulus: every backend answers with the same words, each of them below `2 ^ 14`,
and the pairs are the remainders of the polynomial modulo its quadratic factors. -/
theorem forward_spec (b : Backend) {x : Coeffs 256} (hx : AtMost 3328 x) :
    b.forward x = .ok (Lane.forward x) ∧ AtMost 16180 (Lane.forward x) ∧ Represents 7 (residues x) (Lane.forward x) := by
  have s0 : Sized 0 x := by
    intro d hd m hm
    exact hx _ (by omega)
  have r0 : Represents 0 (residues x) x := by
    intro d hd m hm
    obtain rfl : d = 0 := by omega
    rw [remainder_zero, Nat.zero_mul, Nat.zero_add]
  obtain ⟨e1, s1, r1⟩ := forwardLayer_step b 0 1 128 (by decide) rfl rfl (by decide) s0 r0
  obtain ⟨e2, s2, r2⟩ := forwardLayer_step b 1 2 64 (by decide) rfl rfl (by decide) s1 r1
  obtain ⟨e3, s3, r3⟩ := forwardLayer_step b 2 4 32 (by decide) rfl rfl (by decide) s2 r2
  obtain ⟨e4, s4, r4⟩ := forwardLayer_step b 3 8 16 (by decide) rfl rfl (by decide) s3 r3
  obtain ⟨e5, s5, r5⟩ := forwardLayer_step b 4 16 8 (by decide) rfl rfl (by decide) s4 r4
  obtain ⟨e6, s6, r6⟩ := forwardLayer_step b 5 32 4 (by decide) rfl rfl (by decide) s5 r5
  obtain ⟨e7, s7, r7⟩ := forwardLayer_step b 6 64 2 (by decide) rfl rfl (by decide) s6 r6
  refine ⟨?_, ?_, r7⟩
  · unfold Backend.forward
    rw [e1, ok_bind, e2, ok_bind, e3, ok_bind, e4, ok_bind, e5, ok_bind, e6, ok_bind, e7]
    rfl
  · intro i hi
    have hsize := s7 (i / 2) (by omega) (i % 2) (by omega)
    have hi2 : i / 2 * 2 ^ (8 - 7) + i % 2 = i := by omega
    have hpath := sizeAfter_le (l := 7) (b := i / 2) (by decide) (by omega)
    rw [hi2] at hsize
    exact hsize.trans hpath

end ModuleLattice
