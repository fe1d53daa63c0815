/-!
# The permutation Keccak-f[1600]

The state is 25 words of 64 bits, laid out as a square: word `(x, y)` stands at `5 * y + x`, and both coordinates are taken
modulo 5. A round mixes columns (`theta`), rotates and moves every word (`rhoPi`), combines words of a row (`chi`), and adds a
round constant (`iota`); the permutation is 24 rounds. The sponge does not depend on any of this: it is written for an
arbitrary function on states.
-/

namespace ModuleLattice.Shake

/-- The state of a sponge: 25 words of 64 bits. -/
abbrev State := Vector UInt64 25

namespace Keccak

/-- The word at `(x, y)`, coordinates modulo 5. -/
def word (s : State) (x y : Nat) : UInt64 :=
  have : 5 * (y % 5) + x % 5 < 25 := by omega
  s[5 * (y % 5) + x % 5]

/-- The state given word by word. -/
def tabulate (f : Nat → Nat → UInt64) : State :=
  Vector.ofFn fun i => f (i.val % 5) (i.val / 5)

/-- Rotation of a word to the left, by less than its width. -/
def rotateLeft (w : UInt64) (n : Nat) : UInt64 :=
  (w <<< UInt64.ofNat n) ||| (w >>> UInt64.ofNat (64 - n))

/-- The rotation of each word, at the word's place. -/
def rotations : Vector Nat 25 :=
  #v[0, 1, 62, 28, 27,
    36, 44, 6, 55, 20,
    3, 10, 43, 25, 39,
    41, 45, 15, 21, 8,
    18, 2, 61, 56, 14]

/-- The rotation of the word at `(x, y)`. -/
def rotation (x y : Nat) : Nat :=
  have : 5 * (y % 5) + x % 5 < 25 := by omega
  rotations[5 * (y % 5) + x % 5]

/-- The constants of the 24 rounds. -/
def roundConstants : List UInt64 :=
  [0x0000000000000001, 0x0000000000008082, 0x800000000000808A, 0x8000000080008000,
    0x000000000000808B, 0x0000000080000001, 0x8000000080008081, 0x8000000000008009,
    0x000000000000008A, 0x0000000000000088, 0x0000000080008009, 0x000000008000000A,
    0x000000008000808B, 0x800000000000008B, 0x8000000000008089, 0x8000000000008003,
    0x8000000000008002, 0x8000000000000080, 0x000000000000800A, 0x800000008000000A,
    0x8000000080008081, 0x8000000000008080, 0x0000000080000001, 0x8000000080008008]

/-- The sum of a column. -/
def column (s : State) (x : Nat) : UInt64 :=
  word s x 0 ^^^ word s x 1 ^^^ word s x 2 ^^^ word s x 3 ^^^ word s x 4

/-- Every word takes in the sums of two neighbouring columns. -/
def theta (s : State) : State :=
  let columns : Vector UInt64 5 := Vector.ofFn fun x => column s x.val
  let parity (x : Nat) : UInt64 :=
    have : x % 5 < 5 := Nat.mod_lt x (by decide)
    columns[x % 5]
  let mixed : Vector UInt64 5 := Vector.ofFn fun x => parity (x.val + 4) ^^^ rotateLeft (parity (x.val + 1)) 1
  let mix (x : Nat) : UInt64 :=
    have : x % 5 < 5 := Nat.mod_lt x (by decide)
    mixed[x % 5]
  tabulate fun x y => word s x y ^^^ mix x

/-- Every word is rotated and moves from `(x, y)` to `(y, 2 * x + 3 * y)`; so the word that arrives at `(x, y)` comes from
`(x + 3 * y, x)`. -/
def rhoPi (s : State) : State :=
  tabulate fun x y => rotateLeft (word s (x + 3 * y) x) (rotation (x + 3 * y) x)

/-- Every word takes in its two successors in the row. -/
def chi (s : State) : State :=
  tabulate fun x y => word s x y ^^^ (~~~ word s (x + 1) y &&& word s (x + 2) y)

/-- The first word takes in the round constant. -/
def iota (constant : UInt64) (s : State) : State :=
  s.set 0 (s[0] ^^^ constant)

/-- One round. -/
def round (s : State) (constant : UInt64) : State := iota constant (chi (rhoPi (theta s)))

/-- The permutation. -/
def permute (s : State) : State := roundConstants.foldl round s

end Keccak

end ModuleLattice.Shake
