/-!
# Coefficient ranges and the contracts that name them

Every routine on coefficients states which range it accepts and which it delivers. `Contract` lists these promises, one per
check the library performs; `Contract.range` is the interval promised and `Contract.label` the words a report uses for the
place of the check. The bounds are gathered here because several routines meet in one number: what the base product delivers
has to be small enough for the inverse transform, and what the forward transform delivers small enough for the base product.
-/

namespace ModuleLattice

/-- The modulus of the coefficient field, a prime with `256 ∣ q - 1`. -/
def modulus : Int := 3329

/-- The forward transform delivers coefficients of absolute value below this bound, eight times the modulus. -/
def transformBound : Nat := 26632

/-- The inverse transform accepts coefficients of absolute value below this bound: two of them add up inside a 16-bit word. -/
def inverseInputBound : Nat := 16384

/-- The inverse transform delivers coefficients of absolute value below the modulus. -/
def inverseBound : Nat := 3329

/-- The left operand of a base product stays below this bound in absolute value; every 12-bit coefficient does. -/
def leftOperandBound : Nat := 4096

/-- A single base product delivers coefficients below three halves of the modulus in absolute value. -/
def productBound : Nat := 4993

/-- An interval of coefficients: all of absolute value below a bound, or from a least value up to, but without, a last one. -/
inductive Range where
  | magnitudeBelow (bound : Nat)
  | halfOpen (lo hi : Int)
deriving DecidableEq

/-- Membership of a coefficient in a range. -/
def Range.Holds (c : Int16) : Range → Prop
  | .magnitudeBelow bound => c.toInt.natAbs < bound
  | .halfOpen lo hi => lo ≤ c.toInt ∧ c.toInt < hi

instance (c : Int16) (r : Range) : Decidable (r.Holds c) := by
  cases r <;> unfold Range.Holds <;> infer_instance

/-- The interval as reports write it: round brackets leave an end out, a square bracket takes it in. -/
def Range.text : Range → String
  | .magnitudeBelow bound => "(-" ++ toString bound ++ ", " ++ toString bound ++ ")"
  | .halfOpen lo hi => "[" ++ toString lo ++ ", " ++ toString hi ++ ")"

/-- The checks on coefficient arrays, named by the routine and by what is checked. -/
inductive Contract where
  | transformInput
  | transformOutput
  | inverseInput
  | inverseOutput
  | reduceOutput
  | montgomeryFormOutput
  | mulCacheOutput
  | productLeft
  | productRight
  | productCache
  | productOutput
  | innerProductLeft
  | innerProductRight
  | innerProductCache
  | innerProductOutput
  | uniformOutput
  | noiseTwoOutput
  | noiseThreeOutput
  | encodeInput
  | decodeOutput
  | compressInput
  | decompressOutput
  | messageOutput
deriving DecidableEq

/-- The range a contract promises. -/
def Contract.range : Contract → Range
  | .transformInput => .magnitudeBelow 3329
  | .transformOutput => .magnitudeBelow transformBound
  | .inverseInput => .magnitudeBelow inverseInputBound
  | .inverseOutput => .magnitudeBelow inverseBound
  | .reduceOutput => .halfOpen 0 modulus
  | .montgomeryFormOutput => .magnitudeBelow 3329
  | .mulCacheOutput => .magnitudeBelow 3329
  | .productLeft => .magnitudeBelow leftOperandBound
  | .productRight => .magnitudeBelow transformBound
  | .productCache => .magnitudeBelow 3329
  | .productOutput => .magnitudeBelow productBound
  | .innerProductLeft => .magnitudeBelow leftOperandBound
  | .innerProductRight => .magnitudeBelow transformBound
  | .innerProductCache => .magnitudeBelow 3329
  | .innerProductOutput => .magnitudeBelow transformBound
  | .uniformOutput => .halfOpen 0 modulus
  | .noiseTwoOutput => .magnitudeBelow 3
  | .noiseThreeOutput => .magnitudeBelow 4
  | .encodeInput => .magnitudeBelow 3329
  | .decodeOutput => .halfOpen 0 4096
  | .compressInput => .halfOpen 0 modulus
  | .decompressOutput => .halfOpen 0 modulus
  | .messageOutput => .halfOpen 0 modulus

/-- The words by which a report names the check. -/
def Contract.label : Contract → String
  | .transformInput => "ntt input"
  | .transformOutput => "ntt output"
  | .inverseInput => "invntt input"
  | .inverseOutput => "invntt output"
  | .reduceOutput => "reduce output"
  | .montgomeryFormOutput => "tomont output"
  | .mulCacheOutput => "mulcache output"
  | .productLeft => "basemul lhs"
  | .productRight => "basemul rhs"
  | .productCache => "basemul cache"
  | .productOutput => "basemul output"
  | .innerProductLeft => "basemul_acc lhs"
  | .innerProductRight => "basemul_acc rhs"
  | .innerProductCache => "basemul_acc cache"
  | .innerProductOutput => "basemul_acc output"
  | .uniformOutput => "rej_uniform output"
  | .noiseTwoOutput => "cbd2 output"
  | .noiseThreeOutput => "cbd3 output"
  | .encodeInput => "to_bytes input"
  | .decodeOutput => "from_bytes output"
  | .compressInput => "compress input"
  | .decompressOutput => "decompress output"
  | .messageOutput => "message decode output"

/-- A broken contract as a report states it. -/
def Contract.report (c : Contract) : String :=
  c.label ++ ": coefficient outside " ++ c.range.text

end ModuleLattice
