import ModuleLattice.Blocks
import ModuleLattice.Fault
import ModuleLattice.Shake.Sponge

/-!
# Four sponges at once

A batch is four sponge states that advance together. It is kept in one of two layouts: four states side by side, or 25 vectors
of four words, one for each state, which suits a permutation that works on vectors. Everything but the permutation reaches the
words one by one through `Batch.word` and `Batch.xorWord`, so the layouts differ nowhere else.

The inputs of a batch have one length, and so have its outputs; a call whose arguments disagree is a fault, and the lengths of
the outputs are looked at first.
-/

namespace ModuleLattice.Shake

/-- The number of sponges in a batch. -/
def batchLanes : Nat := 4

/-- How the four states of a batch are laid out. -/
inductive Layout where
  | byState
  | byWord
deriving DecidableEq

/-- Four sponge states in one of the layouts. -/
inductive Batch where
  | byState (states : Vector State 4)
  | byWord (words : Vector (Vector UInt64 4) 25)
deriving DecidableEq

namespace Batch

/-- The batch in which four sponges start. -/
def zero : Layout → Batch
  | .byState => .byState (Vector.replicate 4 State.zero)
  | .byWord => .byWord (Vector.replicate 25 (Vector.replicate 4 0))

/-- Word `i` of a lane. -/
def word (b : Batch) (lane : Fin 4) (i : Fin 25) : UInt64 :=
  match b with
  | .byState states => (states.get lane).get i
  | .byWord words => (words.get i).get lane

/-- A lane of the batch as a state of its own. -/
def lane (b : Batch) (lane : Fin 4) : State := Vector.ofFn fun i => b.word lane i

/-- A word added to word `i` of a lane. -/
def xorWord (b : Batch) (lane : Fin 4) (i : Fin 25) (w : UInt64) : Batch :=
  match b with
  | .byState states => .byState (states.set lane ((states.get lane).set i ((states.get lane).get i ^^^ w) i.isLt) lane.isLt)
  | .byWord words => .byWord (words.set i ((words.get i).set lane ((words.get i).get lane ^^^ w) lane.isLt) i.isLt)

/-- Every lane permuted. -/
def permute (f : State → State) (b : Batch) : Batch :=
  match b with
  | .byState states => .byState (states.map f)
  | .byWord words =>
    let states : Vector State 4 := Vector.ofFn fun lane => f (Vector.ofFn fun i => (words.get i).get lane)
    .byWord (Vector.ofFn fun i => Vector.ofFn fun lane => (states.get lane).get i)

/-- A byte added to a lane at place `i`. -/
def xorByte (b : Batch) (lane : Fin 4) (i : Nat) (byte : UInt8) : Batch :=
  if h : i / 8 < 25 then b.xorWord lane ⟨i / 8, h⟩ (placed byte i) else b

/-- Bytes added to a lane from place `i` on. -/
def xorBytesFrom (b : Batch) (lane : Fin 4) (i : Nat) : Bytes → Batch
  | [] => b
  | byte :: rest => (b.xorByte lane i byte).xorBytesFrom lane (i + 1) rest

/-- The byte of a lane at place `i`. -/
def byteAt (b : Batch) (lane : Fin 4) (i : Nat) : UInt8 :=
  if h : i / 8 < 25 then (b.word lane ⟨i / 8, h⟩ >>> UInt64.ofNat (8 * (i % 8))).toUInt8 else 0

/-- The first `n` bytes of a lane. -/
def bytes (b : Batch) (lane : Fin 4) (n : Nat) : Bytes := (List.range n).map (b.byteAt lane)

/-- A step made on the lanes one after the other. -/
def forLanes (b : Batch) (step : Batch → Fin 4 → Batch) : Batch := (List.finRange 4).foldl step b

/-- The inputs taken in from `offset` on, block by block, and padded; the last block is not yet permuted. -/
def absorbFrom (f : State → State) (rate : Rate) (inputs : Vector Bytes 4) (offset : Nat) (b : Batch) : Batch :=
  if offset + rate.bytes ≤ (inputs.get 0).length then
    let b := b.forLanes fun b lane => b.xorBytesFrom lane 0 (((inputs.get lane).drop offset).take rate.bytes)
    absorbFrom f rate inputs (offset + rate.bytes) (b.permute f)
  else
    let tail := (inputs.get 0).length - offset
    b.forLanes fun b lane =>
      let b := (b.xorBytesFrom lane 0 ((inputs.get lane).drop offset)).xorByte lane tail paddingByte
      b.xorByte lane (rate.bytes - 1) finalBit
termination_by (inputs.get 0).length - offset
decreasing_by
  have := rate.pos
  omega

/-- A fresh batch that has taken in four inputs of one length. -/
def absorb (layout : Layout) (f : State → State) (rate : Rate) (inputs : Vector Bytes 4) : Except Fault Batch := do
  ensure (∀ lane : Fin 4, (inputs.get lane).length = (inputs.get 0).length) .laneInputs
  return absorbFrom f rate inputs 0 (zero layout)

/-- The next `n` bytes of output of every lane. -/
def squeeze (f : State → State) (rate : Rate) (n : Nat) (b : Batch) : Vector Bytes 4 :=
  if n = 0 then Vector.replicate 4 [] else
    let b := b.permute f
    let rest := squeeze f rate (n - rate.bytes) b
    Vector.ofFn fun lane => b.bytes lane (min n rate.bytes) ++ rest.get lane
termination_by n
decreasing_by
  have := rate.pos
  omega

end Batch

/-- SHAKE256 output for four inputs. The lengths asked for have to agree, and so have the lengths of the inputs. -/
def shake256Batch (layout : Layout) (f : State → State) (lengths : Vector Nat 4) (inputs : Vector Bytes 4) :
    Except Fault (Vector Bytes 4) := do
  ensure (∀ lane : Fin 4, lengths.get lane = lengths.get 0) .laneOutputs
  let b ← Batch.absorb layout f rate256 inputs
  return b.squeeze f rate256 (lengths.get 0)

/-- Four sponges of SHAKE128 from which output is taken block by block. -/
structure BatchReader where
  state : Batch
deriving DecidableEq

/-- A batch reader that has taken in four inputs of one length. -/
def BatchReader.absorb (layout : Layout) (f : State → State) (inputs : Vector Bytes 4) : Except Fault BatchReader := do
  let b ← Batch.absorb layout f rate128 inputs
  return ⟨b⟩

/-- The next block of every lane, and the batch reader behind them. -/
def BatchReader.squeezeBlocks (f : State → State) (r : BatchReader) : Vector Bytes 4 × BatchReader :=
  let b := r.state.permute f
  (Vector.ofFn fun lane => b.bytes lane rate128.bytes, ⟨b⟩)

end ModuleLattice.Shake
