import ModuleLattice.Word
import ModuleLattice.Shake.Permutation

/-!
# The sponge

A sponge absorbs a byte string of any length and then delivers as many bytes as are asked for. Bytes are taken in and given
out at the first `rate` bytes of the state, the lowest byte of a word first. Absorbing adds each full block and permutes; the
rest of the input, shorter than a block, is added with the padding: the byte `0x1F` behind it and the top bit of the block's
last byte. The permutation that belongs to this last block is left to the first squeeze: squeezing permutes before each
block, not after it.

All functions take the permutation as an argument, and none needs it to be one.
-/

namespace ModuleLattice.Shake

/-- The number of bytes a block has: at least one, and at most the bytes of the state. -/
structure Rate where
  bytes : Nat
  pos : 0 < bytes
  le_state : bytes ≤ 200

/-- The rate of SHAKE128. -/
def rate128 : Rate := ⟨168, by decide, by decide⟩

/-- The rate of SHAKE256. -/
def rate256 : Rate := ⟨136, by decide, by decide⟩

/-- The padding byte that follows the input; its low bits say that the sponge is used with variable output. -/
def paddingByte : UInt8 := 0x1F

/-- The padding bit at the end of the last block. -/
def finalBit : UInt8 := 0x80

/-- The state in which a sponge starts. -/
def State.zero : State := Vector.replicate 25 0

/-- Byte `b` of a block at place `i` within its word. -/
def placed (b : UInt8) (i : Nat) : UInt64 := b.toUInt64 <<< UInt64.ofNat (8 * (i % 8))

/-- A byte added to the state at place `i`. -/
def State.xorByte (s : State) (i : Nat) (b : UInt8) : State :=
  if h : i / 8 < 25 then s.set (i / 8) (s[i / 8] ^^^ placed b i) else s

/-- Bytes added to the state from place `i` on. -/
def State.xorBytesFrom (s : State) (i : Nat) : Bytes → State
  | [] => s
  | b :: bs => (s.xorByte i b).xorBytesFrom (i + 1) bs

/-- Bytes added to the front of the state. -/
def State.xorBytes (s : State) (bs : Bytes) : State := s.xorBytesFrom 0 bs

/-- The byte of the state at place `i`. -/
def State.byteAt (s : State) (i : Nat) : UInt8 :=
  if h : i / 8 < 25 then (s[i / 8] >>> UInt64.ofNat (8 * (i % 8))).toUInt8 else 0

/-- The first `n` bytes of the state. -/
def State.bytes (s : State) (n : Nat) : Bytes := (List.range n).map s.byteAt

/-- The input taken in and padded; the last block is not yet permuted. -/
def absorbFrom (f : State → State) (rate : Rate) (s : State) (input : Bytes) : State :=
  if rate.bytes ≤ input.length then
    absorbFrom f rate (f (s.xorBytes (input.take rate.bytes))) (input.drop rate.bytes)
  else
    ((s.xorBytes input).xorByte input.length paddingByte).xorByte (rate.bytes - 1) finalBit
termination_by input.length
decreasing_by
  have := rate.pos
  simp only [List.length_drop]
  omega

/-- The state of a fresh sponge that has taken in an input. -/
def absorb (f : State → State) (rate : Rate) (input : Bytes) : State := absorbFrom f rate State.zero input

/-- The next `n` bytes of output. -/
def squeeze (f : State → State) (rate : Rate) (n : Nat) (s : State) : Bytes :=
  if n = 0 then [] else
    let s := f s
    s.bytes (min n rate.bytes) ++ squeeze f rate (n - rate.bytes) s
termination_by n
decreasing_by
  have := rate.pos
  omega

/-- `n` bytes of SHAKE128 output. -/
def shake128 (f : State → State) (n : Nat) (input : Bytes) : Bytes := squeeze f rate128 n (absorb f rate128 input)

/-- `n` bytes of SHAKE256 output. -/
def shake256 (f : State → State) (n : Nat) (input : Bytes) : Bytes := squeeze f rate256 n (absorb f rate256 input)

/-- A sponge of SHAKE128 from which output is taken block by block. -/
structure Reader where
  state : State
deriving DecidableEq

/-- A reader that has taken in an input. -/
def Reader.absorb (f : State → State) (input : Bytes) : Reader := ⟨Shake.absorb f rate128 input⟩

/-- The next block of a reader, and the reader behind it. -/
def Reader.squeezeBlock (f : State → State) (r : Reader) : Bytes × Reader :=
  let s := f r.state
  (s.bytes rate128.bytes, ⟨s⟩)

end ModuleLattice.Shake
