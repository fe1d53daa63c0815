import ModuleLattice.Word
import ModuleLattice.Shake.Batch

/-!
# Noise from a centred binomial distribution

A noise coefficient of width `eta` is the number of ones among `eta` bits less the number of ones among the next `eta`. The
sampler counts in parallel: it reads a chunk of bytes as one word, adds up shifted and masked copies of the word so that each
group of `eta` bits holds its own count, and then takes the counts out two by two. No count can reach into its neighbour.

The bytes come from SHAKE256 over a seed and a nonce. A batch runs four nonces at once; with mixed widths every lane delivers
as many bytes as the wider one needs, and the narrower one leaves the surplus.
-/

namespace ModuleLattice

/-- The widths of the noise distributions. -/
inductive NoiseWidth where
  | two
  | three
deriving DecidableEq

/-- A 32-byte seed. -/
abbrev Seed := Vector UInt8 32

namespace NoiseWidth

/-- The number of bits counted on each side; a coefficient lies between `-eta` and `eta`. -/
def eta : NoiseWidth → Nat
  | .two => 2
  | .three => 3

/-- The number of bytes that 256 coefficients take. -/
def bufferBytes (w : NoiseWidth) : Nat := 64 * w.eta

/-- The number of bytes read as one word. -/
def chunkBytes : NoiseWidth → Nat
  | .two => 4
  | .three => 3

/-- The number of coefficients that a chunk holds. -/
def chunkCoefficients : NoiseWidth → Nat
  | .two => 8
  | .three => 4

/-- Chunk `k` of a buffer as a word, the first byte lowest. -/
def chunk (w : NoiseWidth) (buffer : Bytes) (k : Nat) : UInt32 :=
  UInt32.ofNat (Digits.value 8 (((buffer.drop (w.chunkBytes * k)).take w.chunkBytes).map UInt8.toNat))

/-- The lowest bit of every group of `eta` bits in a chunk. -/
def lowBits : NoiseWidth → UInt32
  | .two => 0x55555555
  | .three => 0x00249249

/-- The number of ones in every group of `eta` bits of a word, kept in the group's own bits. -/
def counts (w : NoiseWidth) (t : UInt32) : UInt32 :=
  match w with
  | .two => (t &&& w.lowBits) + ((t >>> 1) &&& w.lowBits)
  | .three => (t &&& w.lowBits) + ((t >>> 1) &&& w.lowBits) + ((t >>> 2) &&& w.lowBits)

/-- Group `k` of a word of counts. -/
def group (w : NoiseWidth) (counts : UInt32) (k : Nat) : Int16 :=
  ((counts >>> UInt32.ofNat (w.eta * k)) &&& UInt32.ofNat (Nat.pow 2 w.eta - 1)).toUInt16.toInt16

/-- Coefficient `j` of a chunk: a group less its successor. -/
def coefficient (w : NoiseWidth) (t : UInt32) (j : Nat) : Except Fault Int16 :=
  let counts := w.counts t
  Word.sub16 (w.group counts (2 * j)) (w.group counts (2 * j + 1))

/-- The range that the coefficients of a width are promised to lie in. -/
def outputContract : NoiseWidth → Contract
  | .two => .noiseTwoOutput
  | .three => .noiseThreeOutput

/-- 256 noise coefficients from a buffer that is long enough; bytes beyond the ones needed have no effect. -/
def sample (w : NoiseWidth) (buffer : Bytes) : Except Fault (Coeffs 256) := do
  ensure (w.bufferBytes ≤ buffer.length) .noiseBuffer
  let x ← Vector.ofFnM fun i : Fin 256 =>
    w.coefficient (w.chunk buffer (i.val / w.chunkCoefficients)) (i.val % w.chunkCoefficients)
  w.outputContract.require x
  return x

/-- The input from which noise is derived: the seed, then the nonce. -/
def derivationInput (seed : Seed) (nonce : UInt8) : Bytes := seed.toList ++ [nonce]

/-- 256 noise coefficients derived from a seed and a nonce. -/
def derive (f : Shake.State → Shake.State) (w : NoiseWidth) (seed : Seed) (nonce : UInt8) : Except Fault (Coeffs 256) :=
  w.sample (Shake.shake256 f w.bufferBytes (derivationInput seed nonce))

/-- `n` bytes for each of four nonces, from one batch. -/
def batchBytes (layout : Shake.Layout) (f : Shake.State → Shake.State) (n : Nat) (seed : Seed) (nonces : Vector UInt8 4) :
    Except Fault (Vector Bytes 4) :=
  Shake.shake256Batch layout f (Vector.replicate 4 n) (nonces.map (derivationInput seed))

/-- Four times 256 noise coefficients of one width, from one batch. -/
def deriveBatch (layout : Shake.Layout) (f : Shake.State → Shake.State) (w : NoiseWidth) (seed : Seed)
    (nonces : Vector UInt8 4) : Except Fault (Vector (Coeffs 256) 4) := do
  let buffers ← batchBytes layout f w.bufferBytes seed nonces
  Vector.ofFnM fun lane : Fin 4 => w.sample (buffers.get lane)

/-- Four times 256 noise coefficients from one batch, the first two of one width and the last two of another. -/
def deriveMixedBatch (layout : Shake.Layout) (f : Shake.State → Shake.State) (first second : NoiseWidth) (seed : Seed)
    (nonces : Vector UInt8 4) : Except Fault (Vector (Coeffs 256) 4) := do
  let buffers ← batchBytes layout f (max first.bufferBytes second.bufferBytes) seed nonces
  Vector.ofFnM fun lane : Fin 4 =>
    let w := if lane.val < 2 then first else second
    w.sample ((buffers.get lane).take w.bufferBytes)

end NoiseWidth

end ModuleLattice
