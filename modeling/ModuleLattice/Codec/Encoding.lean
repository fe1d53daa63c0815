import ModuleLattice.Codec.Packing
import ModuleLattice.Field

/-!
# Encodings of polynomials

Compression to `d` bits rounds `2 ^ d * c / q` to the nearest integer and drops multiples of `2 ^ d`. No division is made: the
scaled coefficient is multiplied by a reciprocal of the modulus and shifted. The narrow widths use a reciprocal that fits a
32-bit word, where the product may wrap above the bits that are kept; the wide ones use 64 bits. Decompression multiplies by
the modulus and rounds the division by `2 ^ d`.

A compressed polynomial is its 256 values packed at `d` bits each, by the packing of the width. A message is a polynomial
compressed to one bit a coefficient; on the way back its bits select between zero and half the modulus, without a branch on the
bit.

The uncompressed encoding gives every coefficient 12 bits, which residues of the modulus fit, and takes 384 bytes. Encoding takes
signed residues and writes their unsigned forms. Decoding reads any 384 bytes; a field that no residue has, from 3329 to 4095, is
delivered as it is.
-/

namespace ModuleLattice

/-! ## Compressed encodings -/

/-- The number of bits a compressed coefficient has. -/
inductive Width where
  | one
  | four
  | five
  | ten
  | eleven
deriving DecidableEq

namespace Width

/-- The number of bits. -/
def bits : Width → Nat
  | .one => 1
  | .four => 4
  | .five => 5
  | .ten => 10
  | .eleven => 11

/-- The number of bytes of a compressed polynomial. -/
def polynomialBytes (d : Width) : Nat := 32 * d.bits

/-- How compressed values are packed. -/
def packing : (d : Width) → Packing d.bits
  | .one => .one
  | .four => .four
  | .five => .five
  | .ten => .ten
  | .eleven => .eleven

/-- The scaled coefficient times a reciprocal of the modulus, shifted: the rounded quotient, with the surplus bits on top. -/
def quotient (d : Width) (u : UInt16) : UInt16 :=
  match d with
  | .one => ((((u.toUInt32 <<< 1) + 1665) * 80635) >>> 28).toUInt16
  | .four => ((((u.toUInt32 <<< 4) + 1665) * 80635) >>> 28).toUInt16
  | .five => ((((u.toUInt32 <<< 5) + 1664) * 40318) >>> 27).toUInt16
  | .ten => ((((u.toUInt64 <<< 10) + 1664) * 330282857) >>> 40).toUInt16
  | .eleven => ((((u.toUInt64 <<< 11) + 1664) * 330282857) >>> 40).toUInt16

/-- One canonical coefficient compressed to the width. -/
def compressCoefficient (d : Width) (u : UInt16) : Except Fault UInt16 := do
  ensure (u < 3329) .compressCoefficient
  return d.quotient u &&& UInt16.ofNat (Nat.pow 2 d.bits - 1)

/-- The coefficient a compressed value stands for. -/
def decompressCoefficient (d : Width) (y : UInt16) : Except Fault UInt16 := do
  ensure (y < UInt16.ofNat (Nat.pow 2 d.bits)) .decompressValue
  return ((y.toUInt32 * 3329 + UInt32.ofNat (Nat.pow 2 (d.bits - 1))) >>> UInt32.ofNat d.bits).toUInt16

/-- The compressed form of canonical coefficients, written over a buffer. The buffer's length is checked first, then the
coefficients; what the buffer held before is lost. -/
def compress (d : Width) (x : Coeffs 256) (buffer : Bytes) : Except Fault Bytes := do
  ensure (buffer.length = d.polynomialBytes) (.bufferLength buffer.length d.polynomialBytes)
  Contract.compressInput.require x
  let values ← Vector.ofFnM fun i : Fin 256 => d.compressCoefficient (x.get i).toUInt16
  return (d.packing.write values).toList

/-- The coefficients of a message: a bit selects between zero and half the modulus, rounded up. -/
def messageCoefficients (message : Bytes) : Except Fault (Coeffs 256) := do
  let bits := Packing.one.read message
  let x ← Vector.ofFnM fun i : Fin 256 => Word.select 0 1665 (bits.get i)
  Contract.messageOutput.require x
  return x

/-- The coefficients that compressed values stand for. -/
def decompressedCoefficients (d : Width) (bytes : Bytes) : Except Fault (Coeffs 256) := do
  let values := d.packing.read bytes
  let coefficients ← Vector.ofFnM fun i : Fin 256 => d.decompressCoefficient (values.get i)
  let x := coefficients.map UInt16.toInt16
  Contract.decompressOutput.require x
  return x

/-- The coefficients a compressed polynomial stands for. -/
def decompress (d : Width) (bytes : Bytes) : Except Fault (Coeffs 256) := do
  ensure (bytes.length = d.polynomialBytes) (.bufferLength bytes.length d.polynomialBytes)
  match d with
  | .one => messageCoefficients bytes
  | d => decompressedCoefficients d bytes

end Width

/-! ## The uncompressed encoding -/

namespace TwelveBit

/-- The encoding of signed residues. -/
def encode (x : Coeffs 256) : Except Fault (Vector UInt8 384) := do
  Contract.encodeInput.require x
  let residues ← Vector.ofFnM fun i : Fin 256 => liftSign (x.get i)
  return Packing.twelve.write (residues.map Int16.toUInt16)

/-- The 12-bit fields of an encoding. -/
def decode (bytes : Vector UInt8 384) : Except Fault (Coeffs 256) := do
  let x := (Packing.twelve.read bytes.toList).map UInt16.toInt16
  Contract.decodeOutput.require x
  return x

end TwelveBit

end ModuleLattice
