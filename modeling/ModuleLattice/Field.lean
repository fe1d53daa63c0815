import ModuleLattice.Word

/-!
# The field of 3329 elements on machine words

Residues are kept as small signed words, and a multiple of the modulus is taken off only where a word would otherwise
overflow. Montgomery reduction divides by `2 ^ 16` modulo the modulus: it adds the multiple of the modulus that makes the low
half of a 32-bit word vanish and keeps the high half. Barrett reduction subtracts the nearest multiple of the modulus, found
with a scaled reciprocal. Both only ever multiply and shift.

The reductions come in two forms. The scalar ones check all intermediate steps: a step that left its word would be reported as
the overflow it is. Arithmetic on vectors of words acts on each lane alone and wraps where the scalar routines would stop; a
routine on vectors is therefore a total function of one lane, and those in `Lane` are the lanes. The Montgomery lane has no
16-bit product at hand: it sign-extends the low half of a 32-bit word by shifting it up and down again, multiplies, and
sign-extends once more.

`17` is a primitive 256th root of unity modulo 3329. The transform multiplies by its powers in bit-reversed order, and keeps
them in Montgomery form, centred around zero. The table of them is computed from that rule.
-/

namespace ModuleLattice

/-! ## Checked reductions -/

/-- The modulus as a 32-bit word. -/
def modulus32 : Int32 := 3329

/-- The inverse of the modulus modulo `2 ^ 16`, as a signed word. -/
def modulusInverse : Int16 := -3327

/-- `2 ^ 16` modulo the modulus, centred: the Montgomery form of one. -/
def montgomeryOne : Int16 := -1044

/-- `2 ^ 32` modulo the modulus: a Montgomery product with it moves a residue into Montgomery form. -/
def montgomerySquare : Int16 := 1353

/-- The largest magnitude Montgomery reduction accepts: the last one from which a multiple of the modulus by any 16-bit word
can be taken without leaving the 32-bit word. -/
def montgomeryLimit : Int := 2038398975

/-- The integer nearest to `2 ^ 26 / q`, the scaled reciprocal of Barrett reduction. -/
def barrettReciprocal : Int32 := 20159

/-- Montgomery reduction: a small word congruent to `a / 2 ^ 16` modulo the modulus. -/
def montgomeryReduce (a : Int32) : Except Fault Int16 := do
  ensure (-montgomeryLimit ≤ a.toInt ∧ a.toInt ≤ montgomeryLimit) .montgomeryInput
  let t := a.toInt16 * modulusInverse
  let multiple ← Word.mul32 t.toInt32 modulus32
  let difference ← Word.sub32 a multiple
  return (difference >>> 16).toInt16

/-- Barrett reduction: the centred residue of any 16-bit word. -/
def barrettReduce (a : Int16) : Except Fault Int16 := do
  let scaled ← Word.mul32 barrettReciprocal a.toInt32
  let rounded ← Word.add32 scaled 33554432
  let multiple ← Word.mul32 (rounded >>> 26) modulus32
  let difference ← Word.sub32 a.toInt32 multiple
  return difference.toInt16

/-- Montgomery product: a small word congruent to `a * b / 2 ^ 16` modulo the modulus. -/
def montgomeryMul (a b : Int16) : Except Fault Int16 := do
  let product ← Word.mul32 a.toInt32 b.toInt32
  montgomeryReduce product

/-- The Montgomery form of a residue: a small word congruent to `a * 2 ^ 16` modulo the modulus. -/
def toMontgomery (a : Int16) : Except Fault Int16 := montgomeryMul a montgomerySquare

/-- The unsigned form of a signed residue: the modulus is added to a negative one, by selection on the sign bit. -/
def liftSign (c : Int16) : Except Fault Int16 := do
  ensure (-modulus < c.toInt ∧ c.toInt < modulus) .liftInput
  let lifted ← Word.add16 c 3329
  let r ← Word.select c lifted (c.toUInt16 >>> 15)
  ensure (0 ≤ r.toInt ∧ r.toInt < modulus) .liftOutput
  return r

/-- The canonical residue of any 16-bit word, in `[0, q)`. -/
def canonical (c : Int16) : Except Fault Int16 := do
  let r ← barrettReduce c
  liftSign r

/-! ## Reductions in one lane of a word vector -/

namespace Lane

/-- Barrett reduction in a lane. -/
def barrettReduce (a : Int16) : Int16 :=
  let wide := a.toInt32
  let t := (barrettReciprocal * wide + 33554432) >>> 26
  (wide - t * modulus32).toInt16

/-- Montgomery reduction in a lane; it accepts every 32-bit word. -/
def montgomeryReduce (a : Int32) : Int16 :=
  let low := (a <<< 16) >>> 16
  let t := ((low * modulusInverse.toInt32) <<< 16) >>> 16
  ((a - t * modulus32) >>> 16).toInt16

/-- Montgomery product in a lane. -/
def montgomeryMul (a b : Int16) : Int16 := montgomeryReduce (a.toInt32 * b.toInt32)

/-- The canonical residue in a lane: Barrett reduction, then the modulus added to the negative lanes. -/
def canonical (a : Int16) : Int16 :=
  let r := barrettReduce a
  if r < 0 then r + 3329 else r

/-- The Montgomery form in a lane. -/
def toMontgomery (a : Int16) : Int16 := montgomeryMul a montgomerySquare

end Lane

/-! ## The roots of unity that split the ring -/

/-- A primitive 256th root of unity modulo 3329. -/
def rootOfUnity : Nat := 17

/-- The number whose binary digits, `width` of them, are those of `x` in reverse. -/
def reverseBits : (width : Nat) → (x : Nat) → Nat
  | 0, _ => 0
  | width + 1, x => (x % 2) * Nat.pow 2 width + reverseBits width (x / 2)

/-- The residue of least magnitude of a number already reduced modulo 3329, as a word. -/
def centredWord (x : Nat) : Int16 :=
  if 1664 < x then Int16.ofInt ((x : Int) - 3329) else Int16.ofInt x

/-- The twiddle factors: entry `i` is the root of unity to the power of the reversed digits of `i`, in Montgomery form. -/
def twiddles : Vector Int16 128 :=
  Vector.ofFn fun i => centredWord (Nat.pow rootOfUnity (reverseBits 7 i.val) * 65536 % 3329)

/-- The scale that ends the inverse transform: `2 ^ 32 / 128` modulo 3329, centred. A Montgomery product with it undoes the
factor 128 of the seven layers and leaves a factor of `2 ^ 16`. -/
def inverseScale : Int16 := 1441

end ModuleLattice
