import ModuleLattice.Codec.Encoding
import ModuleLattice.Product.Wide
import ModuleLattice.Ring.Poly

/-!
# Polynomials in the transformed domain

The operations on transformed polynomials: back to coefficients, sums, products, and the uncompressed encoding. A product
needs the multiplication cache of its right operand. A polynomial that is used as a right operand more than once is paired
with its cache; `CachedNttPoly` is built from the polynomial by `NttPoly.cached`, and is not modified afterwards.
-/

namespace ModuleLattice

/-- The multiplication cache of a transformed polynomial. -/
structure MulCache where
  coeffs : Coeffs 128
deriving DecidableEq

/-- A transformed polynomial together with its multiplication cache. -/
structure CachedNttPoly where
  poly : NttPoly
  cache : MulCache
deriving DecidableEq

namespace NttPoly

/-- The zero polynomial. -/
def zero : NttPoly := ⟨Vector.replicate 256 0⟩

/-- The polynomial with one coefficient replaced. -/
def setCoeff (p : NttPoly) (i : Fin 256) (c : Int16) : NttPoly := ⟨p.coeffs.setCoeff i c⟩

/-- The inverse transform; the coefficients come out in Montgomery form. -/
def nttInverse (b : Backend) (p : NttPoly) : Except Fault Poly := do
  Contract.inverseInput.require p.coeffs
  let x ← b.inverse p.coeffs
  Contract.inverseOutput.require x
  return ⟨x⟩

/-- The polynomial with canonical coefficients. -/
def reduce (b : Backend) (p : NttPoly) : Except Fault NttPoly := return ⟨← p.coeffs.reduce b⟩

/-- The polynomial in Montgomery form. -/
def toMontgomery (b : Backend) (p : NttPoly) : Except Fault NttPoly := return ⟨← p.coeffs.toMontgomery b⟩

/-- The sum of two polynomials. -/
def add (p q : NttPoly) : Except Fault NttPoly := return ⟨← p.coeffs.add q.coeffs⟩

/-- The multiplication cache of a polynomial. -/
def mulCache (b : Backend) (p : NttPoly) : Except Fault MulCache := do
  let x ← b.mulCache p.coeffs
  Contract.mulCacheOutput.require x
  return ⟨x⟩

/-- The polynomial paired with its multiplication cache. -/
def cached (b : Backend) (p : NttPoly) : Except Fault CachedNttPoly := return ⟨p, ← p.mulCache b⟩

/-- The product with a polynomial whose cache is at hand, divided by `2 ^ 16`. -/
def mulCached (b : Backend) (p : NttPoly) (q : CachedNttPoly) : Except Fault NttPoly := do
  Contract.productLeft.require p.coeffs
  Contract.productRight.require q.poly.coeffs
  Contract.productCache.require q.cache.coeffs
  let x ← b.product ⟨p.coeffs, q.poly.coeffs, q.cache.coeffs⟩
  Contract.productOutput.require x
  return ⟨x⟩

/-- The product of two polynomials, divided by `2 ^ 16`. -/
def mul (b : Backend) (p q : NttPoly) : Except Fault NttPoly := do
  let cache ← q.mulCache b
  p.mulCached b ⟨q, cache⟩

/-- The encoding of a polynomial with signed residues as coefficients. -/
def toBytes (p : NttPoly) : Except Fault (Vector UInt8 384) := TwelveBit.encode p.coeffs

/-- The polynomial of an encoding. -/
def ofBytes (bytes : Vector UInt8 384) : Except Fault NttPoly := return ⟨← TwelveBit.decode bytes⟩

/-- The polynomial of an encoding, with a wrong length refused. -/
def tryOfBytes (bytes : Bytes) : Except Fault NttPoly :=
  if h : bytes.length = 384 then ofBytes ⟨bytes.toArray, by simpa using h⟩
  else .error (.invalidLength 384 bytes.length)

/-- A uniform polynomial derived from a seed and two indices, or `none` if `limit` blocks after the first three are not
enough. -/
def uniform (f : Shake.State → Shake.State) (limit : Nat) (seed : Seed) (x y : UInt8) : Except Fault (Option NttPoly) :=
  return (← Uniform.derive f limit seed x y).map NttPoly.mk

/-- Four uniform polynomials from one batch. -/
def uniformBatch (layout : Shake.Layout) (f : Shake.State → Shake.State) (limit : Nat) (seed : Seed)
    (indices : Vector (UInt8 × UInt8) 4) : Except Fault (Option (Vector NttPoly 4)) :=
  return (← Uniform.deriveBatch layout f limit seed indices).map fun xs => xs.map NttPoly.mk

end NttPoly

end ModuleLattice
