import ModuleLattice.Blocks
import ModuleLattice.Transform.Butterfly

/-!
# The number-theoretic transform, layer by layer

The forward transform takes 256 coefficients through seven layers. A layer sees them as consecutive blocks and applies one
root of unity to the two halves of each block; the next layer has twice as many blocks of half the size. The roots are read
from the table of twiddle factors in ascending order over the whole transform: the layer of `blocks` blocks uses the entries
from `blocks` to `2 * blocks - 1`. The inverse transform runs the layers in the opposite order, reads the table backwards, and
ends with a scale.
-/

namespace ModuleLattice

/-- One layer: each block's halves go through a pass with the block's root, block after block. -/
def layer {blocks half : Nat} (pass : Int16 → Coeffs half → Coeffs half → Except Fault (Coeffs half × Coeffs half))
    (root : Fin blocks → Int16) (x : Coeffs (blocks * (half + half))) : Except Fault (Coeffs (blocks * (half + half))) := do
  let parts ← Vector.ofFnM fun b => do
    let part := block blocks (half + half) x b
    let (low, high) ← pass (root b) (lowerHalf part) (upperHalf part)
    return low ++ high
  return parts.flatten

/-- The layer of the forward transform that has a given number of blocks. -/
def forwardLayer (b : Backend) (blocks half : Nat) (_ : blocks ≤ 64) (x : Coeffs (blocks * (half + half))) :
    Except Fault (Coeffs (blocks * (half + half))) :=
  layer (Butterfly.forward (b.vectorPart half)) (fun i => twiddles[blocks + i.val]) x

/-- The layer of the inverse transform that has a given number of blocks. -/
def inverseLayer (b : Backend) (blocks half : Nat) (_ : blocks ≤ 64) (x : Coeffs (blocks * (half + half))) :
    Except Fault (Coeffs (blocks * (half + half))) :=
  layer (Butterfly.inverse (b.vectorPart half)) (fun i => twiddles[2 * blocks - 1 - i.val]) x

/-- The forward transform: standard order in, bit-reversed order out. -/
def Backend.forward (b : Backend) (x : Coeffs 256) : Except Fault (Coeffs 256) := do
  let x ← forwardLayer b 1 128 (by decide) x
  let x ← forwardLayer b 2 64 (by decide) x
  let x ← forwardLayer b 4 32 (by decide) x
  let x ← forwardLayer b 8 16 (by decide) x
  let x ← forwardLayer b 16 8 (by decide) x
  let x ← forwardLayer b 32 4 (by decide) x
  forwardLayer b 64 2 (by decide) x

/-- The inverse transform: bit-reversed order in, standard order out, every coefficient in Montgomery form. -/
def Backend.inverse (b : Backend) (x : Coeffs 256) : Except Fault (Coeffs 256) := do
  let x ← inverseLayer b 64 2 (by decide) x
  let x ← inverseLayer b 32 4 (by decide) x
  let x ← inverseLayer b 16 8 (by decide) x
  let x ← inverseLayer b 8 16 (by decide) x
  let x ← inverseLayer b 4 32 (by decide) x
  let x ← inverseLayer b 2 64 (by decide) x
  let x ← inverseLayer b 1 128 (by decide) x
  b.pointwise (fun c => montgomeryMul c inverseScale) (fun c => Lane.montgomeryMul c inverseScale) x

end ModuleLattice
