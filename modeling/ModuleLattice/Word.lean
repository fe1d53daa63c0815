import ModuleLattice.Fault

/-!
# Machine words and byte strings

The scalar routines compute on 16-bit and 32-bit words and stop when a sum, difference or product leaves its word. Each
operation here is the exact operation on integers followed by one question: does a word with this value exist? So an
operation that answers has the integer answer, and it faults exactly when that answer has no word. The lane routines use the
words' own operations instead, which wrap.

A byte string stands for a number, its first byte lowest; and digits of any number of bits make up a number in the same way.
-/

namespace ModuleLattice

/-! ## Checked arithmetic -/

namespace Word

/-- The 16-bit word of a given value, or the overflow of the operation that asked for it. -/
def fit16 (operation : WordOperation) (x : Int) : Except Fault Int16 :=
  if -32768 ≤ x ∧ x < 32768 then .ok (Int16.ofInt x) else .error (.overflow operation)

/-- The 32-bit word of a given value, or the overflow of the operation that asked for it. -/
def fit32 (operation : WordOperation) (x : Int) : Except Fault Int32 :=
  if -2147483648 ≤ x ∧ x < 2147483648 then .ok (Int32.ofInt x) else .error (.overflow operation)

/-- Checked 16-bit sum. -/
def add16 (a b : Int16) : Except Fault Int16 := fit16 .add (a.toInt + b.toInt)

/-- Checked 16-bit difference. -/
def sub16 (a b : Int16) : Except Fault Int16 := fit16 .sub (a.toInt - b.toInt)

/-- Checked 16-bit negation. -/
def neg16 (a : Int16) : Except Fault Int16 := fit16 .neg (-a.toInt)

/-- Checked 32-bit sum. -/
def add32 (a b : Int32) : Except Fault Int32 := fit32 .add (a.toInt + b.toInt)

/-- Checked 32-bit difference. -/
def sub32 (a b : Int32) : Except Fault Int32 := fit32 .sub (a.toInt - b.toInt)

/-- Checked 32-bit product. -/
def mul32 (a b : Int32) : Except Fault Int32 := fit32 .mul (a.toInt * b.toInt)

/-- Selection without a branch: `v` if the condition is one, `r` if it is zero. The condition becomes a mask of equal bits,
and the bits in which `r` and `v` differ are flipped under that mask. -/
def select (r v : Int16) (condition : UInt16) : Except Fault Int16 := do
  ensure (condition ≤ 1) .selectCondition
  let mask := (0 - condition).toInt16
  return r ^^^ (mask &&& (r ^^^ v))

end Word

/-! ## Byte strings -/

/-- A byte string of any length. -/
abbrev Bytes := List UInt8

namespace Digits

/-- The number with the given digits of `bits` bits each, the lowest first. -/
def value (bits : Nat) (digits : List Nat) : Nat :=
  digits.foldr (fun digit rest => digit + Nat.pow 2 bits * rest) 0

end Digits

end ModuleLattice
