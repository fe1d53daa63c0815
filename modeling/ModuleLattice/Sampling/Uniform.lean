import ModuleLattice.Sampling.Noise

/-!
# Uniform coefficients by rejection

Three bytes hold two 12-bit candidates. A candidate below the modulus is accepted, the others are dropped, and the accepted
ones fill an array from front to back until it is full. How many bytes that takes depends on the bytes, so an array is kept as
a `Filling`: the coefficients written so far and the slots still free.

The bytes come from SHAKE128 over a seed and two indices: three blocks first, then one block at a time. For some functions in
place of the permutation the array never fills; the number of further blocks is therefore limited by an argument, and a
sampler answers `none` when the limit is reached first.
-/

namespace ModuleLattice

/-- An array of `n` slots that is being filled from the front. -/
structure Filling (n : Nat) where
  written : Array Int16
  free : List Int16
  total : written.size + free.length = n

namespace Filling

/-- An array of which every slot is free; the slots keep their contents until they are written. -/
def start (slots : List Int16) : Filling slots.length := ⟨#[], slots, by simp⟩

/-- The array as it stands: what is written, then the free slots. -/
def slots {n : Nat} (s : Filling n) : List Int16 := s.written.toList ++ s.free

/-- A coefficient in the first free slot leaves as many slots in all. -/
theorem total_push {n : Nat} (s : Filling n) (h : s.free ≠ []) (c : Int16) : (s.written.push c).size + s.free.tail.length = n := by
  have hfree := List.length_pos_iff.2 h
  have htotal := s.total
  rw [Array.size_push, List.length_tail]
  omega

/-- One candidate offered to the first free slot: it is written there if it is below the modulus. -/
def offer {n : Nat} (s : Filling n) (h : s.free ≠ []) (candidate : UInt16) : Filling n :=
  if candidate < 3329 then ⟨s.written.push candidate.toInt16, s.free.tail, s.total_push h candidate.toInt16⟩ else s

/-- One candidate offered if there is a free slot for it. -/
def offerIfFree {n : Nat} (s : Filling n) (candidate : UInt16) : Filling n :=
  if h : s.free = [] then s else s.offer h candidate

/-- The lower candidate of three bytes. -/
def lowCandidate (b0 b1 : UInt8) : UInt16 := (b0.toUInt16 ||| (b1.toUInt16 <<< 8)) &&& 0x0FFF

/-- The upper candidate of three bytes. -/
def highCandidate (b1 b2 : UInt8) : UInt16 := (b1.toUInt16 >>> 4) ||| (b2.toUInt16 <<< 4)

/-- The candidates of a byte string offered in order, three bytes at a time, until no slot is free: that is tested before the lower
candidate of three bytes, and again before the upper one. One or two bytes at the end that do not make three are left. -/
def scan {n : Nat} (s : Filling n) : Bytes → Filling n
  | b0 :: b1 :: b2 :: rest =>
    if h : s.free = [] then s else ((s.offer h (lowCandidate b0 b1)).offerIfFree (highCandidate b1 b2)).scan rest
  | _ => s

/-- A scan after which the newly written coefficients are checked. -/
def scanChecked {n : Nat} (s : Filling n) (bytes : Bytes) : Except Fault (Filling n) := do
  let s' := s.scan bytes
  Contract.uniformOutput.require (s'.written.extract s.written.size).toVector
  return s'

/-- The whole array, once no slot is free. -/
def full? {n : Nat} (s : Filling n) : Option (Coeffs n) :=
  if h : s.free = [] then some ⟨s.written, by have := s.total; simpa [h] using this⟩ else none

end Filling

/-- The slots after accepted candidates of a byte string are written to them, and how many were written. -/
def rejectUniform (slots : List Int16) (bytes : Bytes) : Nat × List Int16 :=
  let s := (Filling.start slots).scan bytes
  (s.written.size, s.slots)

namespace Uniform

/-- The number of blocks read before the first look at how many coefficients are written. -/
def firstBlocks : Nat := 3

/-- The input from which uniform coefficients are derived: the seed, then the two indices. -/
def derivationInput (seed : Seed) (x y : UInt8) : Bytes := seed.toList ++ [x, y]

/-- A polynomial's array with every slot free. -/
def empty : Filling 256 := ⟨#[], List.replicate 256 0, by rw [List.length_replicate]; rfl⟩

/-- The next blocks of a reader in one string, and the reader behind them. -/
def blocks (f : Shake.State → Shake.State) : Nat → Shake.Reader → Bytes × Shake.Reader
  | 0, r => ([], r)
  | n + 1, r =>
    let (first, r) := r.squeezeBlock f
    let (rest, r) := blocks f n r
    (first ++ rest, r)

/-- What a sampler that has ended leaves: the coefficients, the number of blocks it has read, and its reader behind them. -/
structure Derived where
  coeffs : Coeffs 256
  blocks : Nat
  reader : Shake.Reader

/-- Block after block scanned until the array is full, at most `limit` of them, after `read` blocks before. -/
def fill (f : Shake.State → Shake.State) :
    (limit read : Nat) → Shake.Reader → Filling 256 → Except Fault (Option Derived)
  | limit, read, r, s =>
    match s.full? with
    | some x => .ok (some ⟨x, read, r⟩)
    | none =>
      match limit with
      | 0 => .ok none
      | limit + 1 => do
        let (block, r) := r.squeezeBlock f
        let s ← s.scanChecked block
        fill f limit (read + 1) r s

/-- 256 uniform coefficients derived from a seed and two indices, with the number of blocks read and the reader behind them, or
`none` if `limit` blocks after the first three are not enough. -/
def deriveCounted (f : Shake.State → Shake.State) (limit : Nat) (seed : Seed) (x y : UInt8) : Except Fault (Option Derived) := do
  let r := Shake.Reader.absorb f (derivationInput seed x y)
  let (first, r) := blocks f firstBlocks r
  let s ← empty.scanChecked first
  fill f limit firstBlocks r s

/-- 256 uniform coefficients derived from a seed and two indices, or `none` if `limit` blocks after the first three are not
enough. -/
def derive (f : Shake.State → Shake.State) (limit : Nat) (seed : Seed) (x y : UInt8) : Except Fault (Option (Coeffs 256)) :=
  return (← deriveCounted f limit seed x y).map Derived.coeffs

/-- The next blocks of a batch reader, one string a lane, and the batch reader behind them. -/
def batchBlocks (f : Shake.State → Shake.State) : Nat → Shake.BatchReader → Vector Bytes 4 × Shake.BatchReader
  | 0, r => (Vector.replicate 4 [], r)
  | n + 1, r =>
    let (first, r) := r.squeezeBlocks f
    let (rest, r) := batchBlocks f n r
    (first.zipWith (· ++ ·) rest, r)

/-- Block after block scanned in every lane until all arrays are full, at most `limit` of them. A lane that is full is given
further blocks and leaves them. -/
def fillBatch (f : Shake.State → Shake.State) : (limit : Nat) → Shake.BatchReader → Vector (Filling 256) 4 →
    Except Fault (Option (Vector (Coeffs 256) 4))
  | limit, r, ss =>
    match Vector.ofFnM fun lane : Fin 4 => (ss.get lane).full? with
    | some xs => .ok (some xs)
    | none =>
      match limit with
      | 0 => .ok none
      | limit + 1 => do
        let (blocks, r) := r.squeezeBlocks f
        let ss ← Vector.ofFnM fun lane : Fin 4 => (ss.get lane).scanChecked (blocks.get lane)
        fillBatch f limit r ss

/-- Four times 256 uniform coefficients from one batch; each lane has its own two indices. -/
def deriveBatch (layout : Shake.Layout) (f : Shake.State → Shake.State) (limit : Nat) (seed : Seed)
    (indices : Vector (UInt8 × UInt8) 4) : Except Fault (Option (Vector (Coeffs 256) 4)) := do
  let r ← Shake.BatchReader.absorb layout f (indices.map fun index => derivationInput seed index.1 index.2)
  let (first, r) := batchBlocks f firstBlocks r
  let ss ← Vector.ofFnM fun lane : Fin 4 => empty.scanChecked (first.get lane)
  fillBatch f limit r ss

end Uniform

end ModuleLattice
