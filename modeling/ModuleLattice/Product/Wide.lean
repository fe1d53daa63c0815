import ModuleLattice.Product.Quad
import ModuleLattice.Product.Shuffle

/-!
# Products in lanes

The lane forms of the multiplication cache and of the inner product. A step takes as many consecutive quadruples as a vector
has lanes, sorts them by place, computes in lanes, and mixes the results back. Sums and products wrap, and the reduction
accepts every word, so no step can fail. A single product is an inner product of one pair of factors.
-/

namespace ModuleLattice

namespace LaneWidth

/-- The steps of a width cover the 256 coefficients of a polynomial. -/
theorem quads_cover (w : LaneWidth) : 256 = w.steps * (4 * w.lanes) := by cases w <;> rfl

/-- The steps of a width cover the 128 entries of a multiplication cache. -/
theorem pairs_cover (w : LaneWidth) : 128 = w.steps * (2 * w.lanes) := by cases w <;> rfl

/-- Every lane of every step has its root in the table. -/
theorem lane_lt (w : LaneWidth) (s : Fin w.steps) (i : Fin w.lanes) : s.val * w.lanes + i.val < 64 := by
  have h : w.steps * w.lanes = 64 := by cases w <;> rfl
  exact h ▸ block_index_lt s.isLt i.isLt

end LaneWidth

namespace Wide

variable (w : LaneWidth)

/-- The quadruples of step `s`. -/
def quadsAt (x : Coeffs 256) (s : Fin w.steps) : Coeffs (4 * w.lanes) :=
  block w.steps (4 * w.lanes) (x.cast w.quads_cover) s

/-- The cache entries of step `s`. -/
def pairsAt (x : Coeffs 128) (s : Fin w.steps) : Coeffs (2 * w.lanes) :=
  block w.steps (2 * w.lanes) (x.cast w.pairs_cover) s

/-- The multiplication cache in lanes. -/
def mulCache (x : Coeffs 256) : Coeffs 128 :=
  let parts := Vector.ofFn fun s : Fin w.steps =>
    let places := deinterleaveQuads (quadsAt w x s)
    let zeta : Coeffs w.lanes := Vector.ofFn fun i =>
      have := w.lane_lt s i
      twiddles[64 + (s.val * w.lanes + i.val)]
    let first := Vector.ofFn fun i : Fin w.lanes => Lane.montgomeryMul ((places.get 1).get i) (zeta.get i)
    let second := Vector.ofFn fun i : Fin w.lanes => Lane.montgomeryMul ((places.get 3).get i) (-zeta.get i)
    interleavePairs first second
  parts.flatten.cast w.pairs_cover.symm

/-- The running sums of one step, four vectors by place. -/
abbrev Sums (w : LaneWidth) := Vector (Vector Int32 w.lanes) 4

/-- The vectors by place, widened to 32-bit lanes. -/
def widen (places : Vector (Coeffs w.lanes) 4) : Sums w := places.map fun v => v.map Int16.toInt32

/-- One more product of step `s` added to the running sums. -/
def accumulate (s : Fin w.steps) (sums : Sums w) (f : Factors) : Sums w :=
  let a := widen w (deinterleaveQuads (quadsAt w f.left s))
  let b := widen w (deinterleaveQuads (quadsAt w f.right s))
  let (c0, c1) := deinterleavePairs (pairsAt w f.cache s)
  #v[Vector.ofFn fun i : Fin w.lanes =>
      (sums.get 0).get i + ((a.get 0).get i * (b.get 0).get i + (a.get 1).get i * (c0.get i).toInt32),
    Vector.ofFn fun i : Fin w.lanes =>
      (sums.get 1).get i + ((a.get 0).get i * (b.get 1).get i + (a.get 1).get i * (b.get 0).get i),
    Vector.ofFn fun i : Fin w.lanes =>
      (sums.get 2).get i + ((a.get 2).get i * (b.get 2).get i + (a.get 3).get i * (c1.get i).toInt32),
    Vector.ofFn fun i : Fin w.lanes =>
      (sums.get 3).get i + ((a.get 2).get i * (b.get 3).get i + (a.get 3).get i * (b.get 2).get i)]

/-- The inner product in lanes. -/
def innerProduct (fs : List Factors) : Coeffs 256 :=
  let parts := Vector.ofFn fun s : Fin w.steps =>
    let sums := fs.foldl (accumulate w s) (Vector.replicate 4 (Vector.replicate w.lanes 0))
    interleaveQuads (sums.map fun v => v.map Lane.montgomeryReduce)
  parts.flatten.cast w.quads_cover.symm

end Wide

/-- The multiplication cache of a transformed polynomial. -/
def Backend.mulCache (b : Backend) (x : Coeffs 256) : Except Fault (Coeffs 128) :=
  match b with
  | .reference => Scalar.mulCache x
  | .simd w => .ok (Wide.mulCache w x)

/-- The product of two transformed polynomials, divided by `2 ^ 16`. -/
def Backend.product (b : Backend) (f : Factors) : Except Fault (Coeffs 256) :=
  match b with
  | .reference => Scalar.product f
  | .simd w => .ok (Wide.innerProduct w [f])

/-- The inner product of transformed polynomials, divided by `2 ^ 16`. -/
def Backend.innerProduct (b : Backend) (fs : List Factors) : Except Fault (Coeffs 256) :=
  match b with
  | .reference => Scalar.innerProduct fs
  | .simd w => .ok (Wide.innerProduct w fs)

end ModuleLattice
