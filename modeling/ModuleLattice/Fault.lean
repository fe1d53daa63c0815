import ModuleLattice.Contract

/-!
# Why a computation stops

Computations in this library are total functions into `Except Fault`. A `Fault` is a cause, not a text: an overflow of a
checked word operation, a coefficient outside a contract's range, an argument that a scalar routine refuses, or a buffer of
the wrong length. `Fault.message` gives each cause its wording in one place. Of two faults in one call the first in the
order of evaluation is reported, so the order of the steps in a definition is part of its meaning.
-/

namespace ModuleLattice

/-- The word operations that can leave their word. -/
inductive WordOperation where
  | add
  | sub
  | mul
  | neg
deriving DecidableEq

/-- The verb a report uses for a word operation. -/
def WordOperation.verb : WordOperation → String
  | .add => "add"
  | .sub => "subtract"
  | .mul => "multiply"
  | .neg => "negate"

/-- The causes for which a computation stops without a value. -/
inductive Fault where
  /-- A result did not fit its word. -/
  | overflow (operation : WordOperation)
  /-- A coefficient was outside the range of a contract. -/
  | contract (broken : Contract)
  /-- Montgomery reduction was given a number it could not subtract from without leaving its word. -/
  | montgomeryInput
  /-- The lift to unsigned form was given a number that is not a signed residue. -/
  | liftInput
  /-- The lift to unsigned form missed its range. -/
  | liftOutput
  /-- The condition of a selection was neither zero nor one. -/
  | selectCondition
  /-- A coefficient to be compressed was not a canonical residue. -/
  | compressCoefficient
  /-- A value to be decompressed had more bits than the width allows. -/
  | decompressValue
  /-- The buffer of a noise sampler was too short. -/
  | noiseBuffer
  /-- The buffer of one encoded polynomial had the wrong length. -/
  | bufferLength (actual expected : Nat)
  /-- The buffer of an encoded vector had the wrong length. -/
  | vectorBufferLength (actual expected : Nat)
  /-- The inputs of a batched absorb differ in length. -/
  | laneInputs
  /-- The outputs of a batched squeeze differ in length. -/
  | laneOutputs
  /-- A byte string offered for decoding had the wrong length; the one fault a caller is expected to meet and handle. -/
  | invalidLength (expected actual : Nat)
deriving DecidableEq

/-- The wording of a fault. -/
def Fault.message : Fault → String
  | .overflow operation => "attempt to " ++ operation.verb ++ " with overflow"
  | .contract broken => broken.report
  | .montgomeryInput => "montgomery_reduce: input overflows"
  | .liftInput => "signed_to_unsigned_q: input out of range"
  | .liftOutput => "assertion failed: r >= 0 && r < Q"
  | .selectCondition => "cmov_int16: condition must be 0 or 1"
  | .compressCoefficient => "compress: input not canonical"
  | .decompressValue => "decompress: input exceeds width"
  | .noiseBuffer => "assertion failed: buf.len() >= Self::BUF_BYTES"
  | .bufferLength actual expected =>
    "assertion \x60left == right\x60 failed: buffer length mismatch\n  left: " ++ toString actual ++
      "\n right: " ++ toString expected
  | .vectorBufferLength actual expected =>
    "assertion \x60left == right\x60 failed\n  left: " ++ toString actual ++ "\n right: " ++ toString expected
  | .laneInputs => "batched absorb: lane inputs differ in length"
  | .laneOutputs => "batched squeeze: lane outputs differ in length"
  | .invalidLength expected actual =>
    "invalid length: expected " ++ toString expected ++ ", got " ++ toString actual

/-- Coefficient arrays: a fixed number of 16-bit words. -/
abbrev Coeffs (n : Nat) := Vector Int16 n

/-- Stop with a fault unless a condition holds. -/
def ensure (c : Prop) [Decidable c] (e : Fault) : Except Fault Unit := if c then .ok () else .error e

/-- Every coefficient is in the range of the contract. -/
def Contract.Holds {n : Nat} (c : Contract) (xs : Coeffs n) : Prop := ∀ i : Fin n, c.range.Holds (xs.get i)

instance {n : Nat} (c : Contract) (xs : Coeffs n) : Decidable (c.Holds xs) := by
  unfold Contract.Holds; infer_instance

/-- Stop unless every coefficient is in the range of the contract. -/
def Contract.require {n : Nat} (c : Contract) (xs : Coeffs n) : Except Fault Unit := ensure (c.Holds xs) (.contract c)

/-- A condition is ensured exactly if it holds. -/
@[simp] theorem ensure_eq_ok_iff {c : Prop} [Decidable c] {e : Fault} {u : Unit} : ensure c e = .ok u ↔ c := by
  unfold ensure; split <;> simp_all

/-- A condition that does not hold stops with the fault named, and with no other. -/
@[simp] theorem ensure_eq_error_iff {c : Prop} [Decidable c] {e e' : Fault} : ensure c e = .error e' ↔ ¬ c ∧ e = e' := by
  unfold ensure; split <;> simp_all

/-- A contract is met exactly if every coefficient is in its range. -/
@[simp] theorem Contract.require_eq_ok_iff {n : Nat} {c : Contract} {xs : Coeffs n} {u : Unit} :
    c.require xs = .ok u ↔ c.Holds xs := ensure_eq_ok_iff

/-- A broken contract is the fault reported, and it is reported only if it is broken. -/
@[simp] theorem Contract.require_eq_error_iff {n : Nat} {c : Contract} {xs : Coeffs n} {e : Fault} :
    c.require xs = .error e ↔ ¬ c.Holds xs ∧ .contract c = e := ensure_eq_error_iff

end ModuleLattice
