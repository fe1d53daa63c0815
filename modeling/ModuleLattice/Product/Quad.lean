import ModuleLattice.Blocks
import ModuleLattice.Backend

/-!
# Products in the transformed domain

A transformed polynomial is 128 pairs of coefficients, each a polynomial of degree one modulo `X ^ 2 - z` or `X ^ 2 + z`. Two
neighbouring pairs, a quadruple, share the root `z` with opposite signs. The product of `a0 + a1 X` and `b0 + b1 X` modulo
`X ^ 2 - z` needs `b1 z`, which depends on the right operand only; the multiplication cache holds it for every pair, in the
same scaled form in which the products are reduced. With the cache, a quadruple takes eight products and no further reduction
until the sums of pairs are complete.
-/

namespace ModuleLattice

/-- One operand pair of an inner product: a left factor, a right factor, and the right factor's multiplication cache. -/
structure Factors where
  left : Coeffs 256
  right : Coeffs 256
  cache : Coeffs 128

namespace Scalar

/-- The multiplication cache: the odd coefficients of every quadruple times its root, with the root's sign changed for the
second of them. -/
def mulCache (x : Coeffs 256) : Except Fault (Coeffs 128) := do
  let pairs ← Vector.ofFnM fun i : Fin 64 => do
    let quad := block 64 4 x i
    let zeta := twiddles[64 + i.val]
    let first ← montgomeryMul (quad.get 1) zeta
    let negated ← Word.neg16 zeta
    let second ← montgomeryMul (quad.get 3) negated
    return #v[first, second]
  return pairs.flatten

/-- The sum `a * b + c * d` in a checked 32-bit word. -/
def sumOfProducts (a b c d : Int16) : Except Fault Int32 := do
  let first ← Word.mul32 a.toInt32 b.toInt32
  let second ← Word.mul32 c.toInt32 d.toInt32
  Word.add32 first second

/-- The two unreduced products of a quadruple. -/
def quadProduct (a b : Vector Int16 4) (cache : Vector Int16 2) : Except Fault (Vector Int32 4) := do
  let r0 ← sumOfProducts (a.get 0) (b.get 0) (a.get 1) (cache.get 0)
  let r1 ← sumOfProducts (a.get 0) (b.get 1) (a.get 1) (b.get 0)
  let r2 ← sumOfProducts (a.get 2) (b.get 2) (a.get 3) (cache.get 1)
  let r3 ← sumOfProducts (a.get 2) (b.get 3) (a.get 3) (b.get 2)
  return #v[r0, r1, r2, r3]

/-- The quadruple product at place `i` of a pair of factors. -/
def quadProductAt (f : Factors) (i : Fin 64) : Except Fault (Vector Int32 4) :=
  quadProduct (block 64 4 f.left i) (block 64 4 f.right i) (block 64 2 f.cache i)

/-- The product of two transformed polynomials, divided by `2 ^ 16`: quadruple by quadruple, each reduced at once. -/
def product (f : Factors) : Except Fault (Coeffs 256) := do
  let quads ← Vector.ofFnM fun i : Fin 64 => do
    let sums ← quadProductAt f i
    Vector.ofFnM fun j : Fin 4 => montgomeryReduce (sums.get j)
  return quads.flatten

/-- One more product added to the running 32-bit sums. -/
def accumulate (sums : Vector Int32 256) (f : Factors) : Except Fault (Vector Int32 256) := do
  let quads ← Vector.ofFnM fun i : Fin 64 => do
    let terms ← quadProductAt f i
    let sum := block 64 4 sums i
    Vector.ofFnM fun j : Fin 4 => Word.add32 (sum.get j) (terms.get j)
  return quads.flatten

/-- The inner product of transformed polynomials, divided by `2 ^ 16`: the products are summed in 32 bits, and each
coefficient is reduced once. -/
def innerProduct (fs : List Factors) : Except Fault (Coeffs 256) := do
  let sums ← fs.foldlM accumulate (Vector.replicate 256 0)
  Vector.ofFnM fun i : Fin 256 => montgomeryReduce (sums.get i)

end Scalar

end ModuleLattice
