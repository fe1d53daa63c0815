import ModuleLattice.Ring.NttPoly

/-!
# Vectors of polynomials

A vector of rank `k` holds `k` polynomials of one form, and the operations on vectors act on the polynomials in order. The
exception is the inner product in the transformed domain, which sums the products in 32 bits and reduces each coefficient
once. The encodings of a vector are those of its polynomials, one after the other.
-/

namespace ModuleLattice

/-- A vector of polynomials by their coefficients. -/
structure PolyVec (k : Nat) where
  polys : Vector Poly k
deriving DecidableEq

/-- A vector of transformed polynomials. -/
structure NttVec (k : Nat) where
  polys : Vector NttPoly k
deriving DecidableEq

/-- A vector of transformed polynomials with their multiplication caches. -/
structure CachedNttVec (k : Nat) where
  polys : Vector CachedNttPoly k
deriving DecidableEq

variable {k : Nat}

/-- Part `i` of a byte string cut into parts of `size` bytes. -/
def part (bytes : Bytes) (size i : Nat) : Bytes := (bytes.drop (i * size)).take size

namespace PolyVec

/-- The zero vector. -/
def zero (k : Nat) : PolyVec k := ⟨Vector.replicate k Poly.zero⟩

/-- What is left of a vector after it is wiped. -/
def wipe (v : PolyVec k) : PolyVec k := ⟨v.polys.map Poly.wipe⟩

/-- The vector with one polynomial replaced. -/
def setPoly (v : PolyVec k) (i : Fin k) (p : Poly) : PolyVec k := ⟨v.polys.set i p i.isLt⟩

/-- The transform of a vector. -/
def ntt (b : Backend) (v : PolyVec k) : Except Fault (NttVec k) :=
  return ⟨← Vector.ofFnM fun i : Fin k => (v.polys.get i).ntt b⟩

/-- The vector with canonical coefficients. -/
def reduce (b : Backend) (v : PolyVec k) : Except Fault (PolyVec k) :=
  return ⟨← Vector.ofFnM fun i : Fin k => (v.polys.get i).reduce b⟩

/-- The sum of two vectors. -/
def add (v w : PolyVec k) : Except Fault (PolyVec k) :=
  return ⟨← Vector.ofFnM fun i : Fin k => (v.polys.get i).add (w.polys.get i)⟩

/-- The difference of two vectors. -/
def sub (v w : PolyVec k) : Except Fault (PolyVec k) :=
  return ⟨← Vector.ofFnM fun i : Fin k => (v.polys.get i).sub (w.polys.get i)⟩

/-- The number of bytes of a compressed vector. -/
def compressedBytes (k : Nat) (d : Width) : Nat := k * d.polynomialBytes

/-- The compressed form of a vector with canonical coefficients, written over a buffer. -/
def compress (d : Width) (v : PolyVec k) (buffer : Bytes) : Except Fault Bytes := do
  ensure (buffer.length = compressedBytes k d) (.vectorBufferLength buffer.length (compressedBytes k d))
  let parts ← Vector.ofFnM fun i : Fin k => (v.polys.get i).compress d (part buffer d.polynomialBytes i.val)
  return parts.toList.flatten

/-- The vector a compressed form stands for. -/
def decompress (k : Nat) (d : Width) (bytes : Bytes) : Except Fault (PolyVec k) := do
  ensure (bytes.length = compressedBytes k d) (.vectorBufferLength bytes.length (compressedBytes k d))
  return ⟨← Vector.ofFnM fun i : Fin k => Poly.decompress d (part bytes d.polynomialBytes i.val)⟩

/-- The vector a compressed form stands for, with a wrong length refused. -/
def tryDecompress (k : Nat) (d : Width) (bytes : Bytes) : Except Fault (PolyVec k) :=
  if bytes.length = compressedBytes k d then decompress k d bytes
  else .error (.invalidLength (compressedBytes k d) bytes.length)

end PolyVec

namespace CachedNttVec

/-- The vector without the caches. -/
def toNttVec (v : CachedNttVec k) : NttVec k := ⟨v.polys.map CachedNttPoly.poly⟩

end CachedNttVec

namespace NttVec

/-- The zero vector. -/
def zero (k : Nat) : NttVec k := ⟨Vector.replicate k NttPoly.zero⟩

/-- The vector with one polynomial replaced. -/
def setPoly (v : NttVec k) (i : Fin k) (p : NttPoly) : NttVec k := ⟨v.polys.set i p i.isLt⟩

/-- The inverse transform of a vector. -/
def nttInverse (b : Backend) (v : NttVec k) : Except Fault (PolyVec k) :=
  return ⟨← Vector.ofFnM fun i : Fin k => (v.polys.get i).nttInverse b⟩

/-- The vector with canonical coefficients. -/
def reduce (b : Backend) (v : NttVec k) : Except Fault (NttVec k) :=
  return ⟨← Vector.ofFnM fun i : Fin k => (v.polys.get i).reduce b⟩

/-- The vector in Montgomery form. -/
def toMontgomery (b : Backend) (v : NttVec k) : Except Fault (NttVec k) :=
  return ⟨← Vector.ofFnM fun i : Fin k => (v.polys.get i).toMontgomery b⟩

/-- The sum of two vectors. -/
def add (v w : NttVec k) : Except Fault (NttVec k) :=
  return ⟨← Vector.ofFnM fun i : Fin k => (v.polys.get i).add (w.polys.get i)⟩

/-- The vector with the multiplication caches of its polynomials. -/
def cached (b : Backend) (v : NttVec k) : Except Fault (CachedNttVec k) :=
  return ⟨← Vector.ofFnM fun i : Fin k => (v.polys.get i).cached b⟩

/-- The ranks for which there is an inner product: the sums of more than four products are not sure to fit their words. -/
def ProductRank (k : Nat) : Prop := 1 ≤ k ∧ k ≤ 4

instance (k : Nat) : Decidable (ProductRank k) := by
  unfold ProductRank; infer_instance

/-- The factors of an inner product, place by place. -/
def factors (v : NttVec k) (w : CachedNttVec k) : Vector Factors k :=
  Vector.ofFn fun i : Fin k => ⟨(v.polys.get i).coeffs, (w.polys.get i).poly.coeffs, (w.polys.get i).cache.coeffs⟩

/-- The ranges one pair of factors has to be in. -/
def requireFactors (f : Factors) : Except Fault Unit := do
  Contract.innerProductLeft.require f.left
  Contract.innerProductRight.require f.right
  Contract.innerProductCache.require f.cache

/-- The inner product with a vector whose caches are at hand, divided by `2 ^ 16`. -/
def innerProductCached (b : Backend) (v : NttVec k) (w : CachedNttVec k) : Except Fault NttPoly := do
  let fs := (v.factors w).toList
  fs.forM requireFactors
  let x ← b.innerProduct fs
  Contract.innerProductOutput.require x
  return ⟨x⟩

/-- The inner product of two vectors, divided by `2 ^ 16`. -/
def innerProduct (b : Backend) (v w : NttVec k) : Except Fault NttPoly := do
  let w ← w.cached b
  v.innerProductCached b w

/-- The number of bytes of an encoded vector. -/
def encodedBytes (k : Nat) : Nat := k * 384

/-- The encoding of a vector with signed residues as coefficients, written over a buffer. -/
def toBytes (v : NttVec k) (buffer : Bytes) : Except Fault Bytes := do
  ensure (buffer.length = encodedBytes k) (.vectorBufferLength buffer.length (encodedBytes k))
  let parts ← Vector.ofFnM fun i : Fin k => (v.polys.get i).toBytes
  return parts.flatten.toList

/-- The vector of an encoding. -/
def ofBytes (k : Nat) (bytes : Bytes) : Except Fault (NttVec k) :=
  if h : bytes.length = encodedBytes k then
    let all : Vector UInt8 (k * 384) := ⟨bytes.toArray, by simpa [encodedBytes] using h⟩
    return ⟨← Vector.ofFnM fun i : Fin k => NttPoly.ofBytes (block k 384 all i)⟩
  else .error (.vectorBufferLength bytes.length (encodedBytes k))

/-- The vector of an encoding, with a wrong length refused. -/
def tryOfBytes (k : Nat) (bytes : Bytes) : Except Fault (NttVec k) :=
  if bytes.length = encodedBytes k then ofBytes k bytes
  else .error (.invalidLength (encodedBytes k) bytes.length)

end NttVec

end ModuleLattice
