import ModuleLattice.Ring.Vec

/-!
# The parameter sets

Three parameter sets choose the rank of the vectors, the widths of the noise, and the widths of compression. All sizes of
encodings follow from these choices.
-/

namespace ModuleLattice

/-- A choice of rank, noise widths and compression widths. -/
structure ParameterSet where
  name : String
  rank : Nat
  /-- The noise of secrets and of key generation. -/
  keyNoise : NoiseWidth
  /-- The noise of encryption. -/
  encryptionNoise : NoiseWidth
  /-- The compression of the vector part of a ciphertext. -/
  vectorWidth : Width
  /-- The compression of the scalar part of a ciphertext. -/
  scalarWidth : Width

namespace ParameterSet

/-- The set of rank two. -/
def mlKem512 : ParameterSet := ⟨"ML-KEM-512", 2, .three, .two, .ten, .four⟩

/-- The set of rank three. -/
def mlKem768 : ParameterSet := ⟨"ML-KEM-768", 3, .two, .two, .ten, .four⟩

/-- The set of rank four. -/
def mlKem1024 : ParameterSet := ⟨"ML-KEM-1024", 4, .two, .two, .eleven, .five⟩

/-- The number of bytes of an encoded vector. -/
def vectorBytes (s : ParameterSet) : Nat := NttVec.encodedBytes s.rank

/-- The number of bytes of a compressed vector. -/
def compressedVectorBytes (s : ParameterSet) : Nat := PolyVec.compressedBytes s.rank s.vectorWidth

/-- The number of bytes of a compressed polynomial. -/
def compressedScalarBytes (s : ParameterSet) : Nat := s.scalarWidth.polynomialBytes

end ParameterSet

end ModuleLattice
