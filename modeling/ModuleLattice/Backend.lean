import ModuleLattice.Field

/-!
# The ways of running a kernel

A kernel runs either on scalars, with every word operation checked, or on vectors of a fixed number of lanes, whose
arithmetic wraps. A pass over pairs of entries takes as many whole vectors as fit and leaves the rest to the scalar code;
`vectorPart` counts the entries that go through the vectors.
-/

namespace ModuleLattice

/-- The vector widths on offer, in 16-bit lanes. -/
inductive LaneWidth where
  | eight
  | sixteen
  | thirtyTwo
  | sixtyFour
deriving DecidableEq

/-- The number of lanes of a vector. -/
def LaneWidth.lanes : LaneWidth → Nat
  | .eight => 8
  | .sixteen => 16
  | .thirtyTwo => 32
  | .sixtyFour => 64

/-- The number of steps in which a product goes through its 64 quadruples, one quadruple a lane. -/
def LaneWidth.steps : LaneWidth → Nat
  | .eight => 8
  | .sixteen => 4
  | .thirtyTwo => 2
  | .sixtyFour => 1

/-- A way of running the kernels: on scalars or on vectors. -/
inductive Backend where
  | reference
  | simd (width : LaneWidth)
deriving DecidableEq

/-- The name by which a backend is selected. -/
def Backend.name : Backend → String
  | .reference => "reference"
  | .simd width => "simd-" ++ toString width.lanes

/-- Of `n` entries, how many go through whole vectors of a number of lanes. -/
def vectorPart (lanes n : Nat) : Nat := n - n % lanes

/-- Of `n` entries, how many a backend runs in lanes. -/
def Backend.vectorPart (b : Backend) (n : Nat) : Nat :=
  match b with
  | .reference => 0
  | .simd width => ModuleLattice.vectorPart width.lanes n

/-- A pass that treats every coefficient alone: checked scalar steps from the first to the last, or lanes. -/
def Backend.pointwise {n : Nat} (b : Backend) (scalar : Int16 → Except Fault Int16) (lane : Int16 → Int16) (x : Coeffs n) :
    Except Fault (Coeffs n) :=
  match b with
  | .reference => Vector.ofFnM fun i => scalar (x.get i)
  | .simd _ => .ok (x.map lane)

/-- Every coefficient replaced by its canonical residue. -/
def Backend.reduce {n : Nat} (b : Backend) (x : Coeffs n) : Except Fault (Coeffs n) :=
  b.pointwise canonical Lane.canonical x

/-- Every coefficient moved into Montgomery form. -/
def Backend.toMontgomery {n : Nat} (b : Backend) (x : Coeffs n) : Except Fault (Coeffs n) :=
  b.pointwise ModuleLattice.toMontgomery Lane.toMontgomery x

end ModuleLattice
