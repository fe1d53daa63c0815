import ModuleLattice.Codec.Encoding
import ModuleLattice.Sampling.Uniform
import ModuleLattice.Transform.Layers

/-!
# Polynomials modulo `X ^ 256 + 1`

A polynomial is kept in one of two forms, and the types keep the forms apart: `Poly` holds its 256 coefficients, `NttPoly` its
128 residues modulo quadratic factors of `X ^ 256 + 1`. Operations check on entry the range of coefficients they accept and on
return the range they promise. Coefficients are 16-bit words and need not be reduced; sums and differences of polynomials are
checked for overflow and left unreduced.
-/

namespace ModuleLattice

/-- A polynomial by its coefficients, the constant one first. -/
structure Poly where
  coeffs : Coeffs 256
deriving DecidableEq

/-- A polynomial by its residues modulo the quadratic factors, in bit-reversed order. -/
structure NttPoly where
  coeffs : Coeffs 256
deriving DecidableEq

namespace Coeffs

/-- The array with one coefficient replaced. -/
def setCoeff {n : Nat} (x : Coeffs n) (i : Fin n) (c : Int16) : Coeffs n := x.set i c i.isLt

/-- The sum coefficient by coefficient, checked. -/
def add {n : Nat} (x y : Coeffs n) : Except Fault (Coeffs n) := Vector.ofFnM fun i => Word.add16 (x.get i) (y.get i)

/-- The difference coefficient by coefficient, checked. -/
def sub {n : Nat} (x y : Coeffs n) : Except Fault (Coeffs n) := Vector.ofFnM fun i => Word.sub16 (x.get i) (y.get i)

/-- Every coefficient replaced by its canonical residue. -/
def reduce {n : Nat} (b : Backend) (x : Coeffs n) : Except Fault (Coeffs n) := do
  let r ← b.reduce x
  Contract.reduceOutput.require r
  return r

/-- Every coefficient moved into Montgomery form. -/
def toMontgomery {n : Nat} (b : Backend) (x : Coeffs n) : Except Fault (Coeffs n) := do
  let r ← b.toMontgomery x
  Contract.montgomeryFormOutput.require r
  return r

end Coeffs

namespace Poly

/-- The zero polynomial. -/
def zero : Poly := ⟨Vector.replicate 256 0⟩

/-- What is left of a polynomial after it is wiped. -/
def wipe (_ : Poly) : Poly := zero

/-- The polynomial with one coefficient replaced. -/
def setCoeff (p : Poly) (i : Fin 256) (c : Int16) : Poly := ⟨p.coeffs.setCoeff i c⟩

/-- The transform of a polynomial. -/
def ntt (b : Backend) (p : Poly) : Except Fault NttPoly := do
  Contract.transformInput.require p.coeffs
  let x ← b.forward p.coeffs
  Contract.transformOutput.require x
  return ⟨x⟩

/-- The polynomial with canonical coefficients. -/
def reduce (b : Backend) (p : Poly) : Except Fault Poly := return ⟨← p.coeffs.reduce b⟩

/-- The polynomial in Montgomery form. -/
def toMontgomery (b : Backend) (p : Poly) : Except Fault Poly := return ⟨← p.coeffs.toMontgomery b⟩

/-- The sum of two polynomials. -/
def add (p q : Poly) : Except Fault Poly := return ⟨← p.coeffs.add q.coeffs⟩

/-- The difference of two polynomials. -/
def sub (p q : Poly) : Except Fault Poly := return ⟨← p.coeffs.sub q.coeffs⟩

/-- The compressed form of a polynomial with canonical coefficients, written over a buffer. -/
def compress (d : Width) (p : Poly) (buffer : Bytes) : Except Fault Bytes := d.compress p.coeffs buffer

/-- The polynomial a compressed form stands for. -/
def decompress (d : Width) (bytes : Bytes) : Except Fault Poly := return ⟨← d.decompress bytes⟩

/-- The polynomial a compressed form stands for, with a wrong length refused. -/
def tryDecompress (d : Width) (bytes : Bytes) : Except Fault Poly :=
  if bytes.length = d.polynomialBytes then decompress d bytes
  else .error (.invalidLength d.polynomialBytes bytes.length)

/-- The polynomial of a 32-byte message. -/
def ofMessage (message : Vector UInt8 32) : Except Fault Poly := decompress .one message.toList

/-- The message of a polynomial with canonical coefficients. -/
def toMessage (p : Poly) : Except Fault Bytes := p.compress .one (List.replicate 32 0)

/-- A noise polynomial from a buffer. -/
def noiseOfBytes (w : NoiseWidth) (buffer : Bytes) : Except Fault Poly := return ⟨← w.sample buffer⟩

/-- A noise polynomial derived from a seed and a nonce. -/
def noise (f : Shake.State → Shake.State) (w : NoiseWidth) (seed : Seed) (nonce : UInt8) : Except Fault Poly :=
  return ⟨← w.derive f seed nonce⟩

/-- Four noise polynomials of one width, from one batch. -/
def noiseBatch (layout : Shake.Layout) (f : Shake.State → Shake.State) (w : NoiseWidth) (seed : Seed)
    (nonces : Vector UInt8 4) : Except Fault (Vector Poly 4) :=
  return (← w.deriveBatch layout f seed nonces).map Poly.mk

/-- Four noise polynomials from one batch, two of one width and two of another. -/
def noiseMixedBatch (layout : Shake.Layout) (f : Shake.State → Shake.State) (first second : NoiseWidth) (seed : Seed)
    (nonces : Vector UInt8 4) : Except Fault (Vector Poly 4) :=
  return (← NoiseWidth.deriveMixedBatch layout f first second seed nonces).map Poly.mk

end Poly

end ModuleLattice
