import ModuleLattice.Backend

/-!
# Butterflies

A butterfly turns the pair of coefficients `(low, high)` that stand half a block apart into two others. The forward one adds
and subtracts the product of `high` with a root of unity; the inverse one takes the sum and multiplies the difference. A pass
applies one butterfly to two halves of a block, pair by pair: the first `wide` pairs in lanes, the others with checked scalar
steps. In a scalar butterfly the steps come in a fixed order, because the first step that overflows is the one reported: the
forward butterfly subtracts before it adds, the inverse one adds and reduces before it subtracts.
-/

namespace ModuleLattice

namespace Scalar

/-- The forward butterfly on one pair, checked. -/
def forwardPair (zeta low high : Int16) : Except Fault (Int16 × Int16) := do
  let t ← montgomeryMul zeta high
  let difference ← Word.sub16 low t
  let sum ← Word.add16 low t
  return (sum, difference)

/-- The inverse butterfly on one pair, checked. -/
def inversePair (zeta low high : Int16) : Except Fault (Int16 × Int16) := do
  let sum ← Word.add16 low high
  let reduced ← barrettReduce sum
  let difference ← Word.sub16 high low
  let scaled ← montgomeryMul zeta difference
  return (reduced, scaled)

end Scalar

namespace Lane

/-- The forward butterfly in a lane. -/
def forwardPair (zeta low high : Int16) : Int16 × Int16 :=
  let t := montgomeryMul zeta high
  (low + t, low - t)

/-- The inverse butterfly in a lane. -/
def inversePair (zeta low high : Int16) : Int16 × Int16 :=
  (barrettReduce (low + high), montgomeryMul zeta (high - low))

end Lane

namespace Butterfly

/-- A pass over two halves: the first `wide` pairs by the lane formula, the others by the scalar one, in order. -/
def pass {n : Nat} (wide : Nat) (lane : Int16 → Int16 → Int16 × Int16) (scalar : Int16 → Int16 → Except Fault (Int16 × Int16))
    (low high : Coeffs n) : Except Fault (Coeffs n × Coeffs n) := do
  let pairs ← Vector.ofFnM fun i : Fin n =>
    if i.val < wide then .ok (lane (low.get i) (high.get i)) else scalar (low.get i) (high.get i)
  return (pairs.map Prod.fst, pairs.map Prod.snd)

/-- Forward butterflies with one root on two halves. -/
def forward {n : Nat} (wide : Nat) (zeta : Int16) (low high : Coeffs n) : Except Fault (Coeffs n × Coeffs n) :=
  pass wide (Lane.forwardPair zeta) (Scalar.forwardPair zeta) low high

/-- Inverse butterflies with one root on two halves. -/
def inverse {n : Nat} (wide : Nat) (zeta : Int16) (low high : Coeffs n) : Except Fault (Coeffs n × Coeffs n) :=
  pass wide (Lane.inversePair zeta) (Scalar.inversePair zeta) low high

end Butterfly

end ModuleLattice
