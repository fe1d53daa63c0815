import ModuleLattice.Blocks
import ModuleLattice.Shake.Permutation
import Mathlib.Data.ZMod.Basic

/-!
# Keccak-f[1600] loses nothing

Different states stay different under the permutation, because each step of a round keeps them apart. `iota` and `rhoPi` can be
taken back word by word, and `chi` row by row and bit by bit. Only `theta` mixes words of all places: it adds to every column of
words what it finds in two others, so the columns of the result have to determine those of the state. On the bits of the columns
that is a sum of three shifts (`spread`); applied twice it is the sum of the doubled shifts, since what occurs twice cancels, and
after six doublings the rotation by 64 places is gone and three more applications give the columns back (`spread_thrice`).
-/

namespace ModuleLattice.Shake.Keccak

/-! ## Bits of words -/

/-- Bit `z` of a word. -/
def bit (w : UInt64) (z : ZMod 64) : Bool := w.toBitVec.getLsbD z.val

/-- A word is determined by its bits. -/
theorem eq_of_bits {v w : UInt64} (h : ∀ z, bit v z = bit w z) : v = w := by
  refine UInt64.eq_of_toBitVec_eq (BitVec.eq_of_getLsbD_eq ?_)
  intro z hz
  have hbit := h (z : ZMod 64)
  rwa [bit, bit, ZMod.val_natCast, Nat.mod_eq_of_lt hz] at hbit

theorem bit_xor (v w : UInt64) (z : ZMod 64) : bit (v ^^^ w) z = (bit v z ^^ bit w z) := by
  rw [bit, UInt64.toBitVec_xor, BitVec.getLsbD_xor]
  rfl

theorem bit_and (v w : UInt64) (z : ZMod 64) : bit (v &&& w) z = (bit v z && bit w z) := by
  rw [bit, UInt64.toBitVec_and, BitVec.getLsbD_and]
  rfl

theorem bit_not (w : UInt64) (z : ZMod 64) : bit (~~~w) z = !bit w z := by
  rw [bit, UInt64.toBitVec_not, BitVec.getLsbD_not, decide_eq_true z.val_lt, Bool.true_and]
  rfl

/-- Rotation moves every bit up by as many places. -/
theorem bit_rotateLeft (w : UInt64) {n : Nat} (hn : n < 64) (z : ZMod 64) : bit (rotateLeft w n) (z + n) = bit w z := by
  have hz := z.val_lt
  have hup : ((UInt64.ofNat n).toBitVec % 64).toNat = n := by
    simp
    omega
  have hdown : ((UInt64.ofNat (64 - n)).toBitVec % 64).toNat = (64 - n) % 64 := by
    simp
  have hplace : (z + n).val = (z.val + n) % 64 := by rw [ZMod.val_add, ZMod.val_natCast, Nat.add_mod_mod]
  have hin : (z.val + n) % 64 < 64 := Nat.mod_lt _ (by decide)
  unfold bit rotateLeft
  rw [UInt64.toBitVec_or, BitVec.getLsbD_or, UInt64.toBitVec_shiftLeft, UInt64.toBitVec_shiftRight, BitVec.getLsbD_shiftLeft',
    BitVec.ushiftRight_eq', BitVec.getLsbD_ushiftRight, hup, hdown, hplace, decide_eq_true hin, Bool.true_and]
  rcases Nat.eq_zero_or_pos n with rfl | hpos
  · simp [Nat.mod_eq_of_lt hz]
  · by_cases hwrap : z.val + n < 64
    · have hout : 64 ≤ (64 - n) % 64 + (z.val + n) := by omega
      rw [Nat.mod_eq_of_lt hwrap, Nat.add_sub_cancel, BitVec.getLsbD_of_ge _ _ hout]
      simp
    · have hback : (64 - n) % 64 + (z.val + n) % 64 = z.val := by omega
      have hlow : (z.val + n) % 64 < n := by omega
      rw [hback, decide_eq_true hlow]
      simp

/-- Rotation by less than a word loses nothing. -/
theorem rotateLeft_injective {n : Nat} (hn : n < 64) : Function.Injective fun w => rotateLeft w n := by
  intro v w h
  refine eq_of_bits fun z => ?_
  rw [← bit_rotateLeft v hn, ← bit_rotateLeft w hn]
  exact congrArg (fun u => bit u (z + n)) h

/-- Rotation by one place, read at the place it moves a bit to. -/
theorem bit_rotateLeft_one (w : UInt64) (z : ZMod 64) : bit (rotateLeft w 1) z = bit w (z + 63) := by
  have hturn : z + 63 + (1 : Nat) = z := by
    rw [add_assoc]
    exact add_zero z
  rw [← bit_rotateLeft w (by decide : 1 < 64), hturn]

/-! ## Words of states -/

/-- Both coordinates are taken modulo 5. -/
theorem word_mod (s : State) (x y : Nat) : word s (x % 5) (y % 5) = word s x y := by
  simp only [word, Nat.mod_mod]

theorem word_mod_add (s : State) (x k y : Nat) : word s (x % 5 + k) (y % 5) = word s (x + k) y := by
  simp only [word, Nat.mod_mod, Nat.mod_add_mod]

theorem word_tabulate (f : Nat → Nat → UInt64) (x y : Nat) : word (tabulate f) x y = f (x % 5) (y % 5) := by
  have hx : (5 * (y % 5) + x % 5) % 5 = x % 5 := by omega
  have hy : (5 * (y % 5) + x % 5) / 5 = y % 5 := by omega
  simp only [word, tabulate, Vector.getElem_ofFn, hx, hy]

/-- A state is determined by its words. -/
theorem eq_of_words {s t : State} (h : ∀ x y, word s x y = word t x y) : s = t := by
  refine Vector.ext fun i hi => ?_
  have hplace : 5 * (i / 5 % 5) + i % 5 % 5 = i := by omega
  have hword := h (i % 5) (i / 5)
  simpa only [word, hplace] using hword

/-! ## The steps that move or combine single words -/

theorem iota_injective (constant : UInt64) : Function.Injective (iota constant) := by
  intro s t h
  refine Vector.ext fun i hi => ?_
  have hentry := congrArg (fun u : State => u[i]) h
  rcases Nat.eq_zero_or_pos i with rfl | hpos
  · simpa [iota] using hentry
  · have hne : 0 ≠ i := by omega
    simpa [iota, hne] using hentry

theorem rotation_lt (x y : Nat) : rotation x y < 64 := by
  have hall : ∀ i : Fin 25, rotations.get i < 64 := by decide
  exact hall ⟨5 * (y % 5) + x % 5, by omega⟩

/-- A word at `(x, y)` can be read where it moves to, at `(y, 2 * x + 3 * y)`. -/
theorem word_rhoPi (s : State) (x y : Nat) :
    word (rhoPi s) y (2 * x + 3 * y) = rotateLeft (word s x y) (rotation x y) := by
  have hx : (y % 5 + 3 * ((2 * x + 3 * y) % 5)) % 5 = x % 5 := by omega
  rw [rhoPi, word_tabulate]
  simp only [word, rotation, hx, Nat.mod_mod]

theorem rhoPi_injective : Function.Injective rhoPi := by
  intro s t h
  refine eq_of_words fun x y => rotateLeft_injective (rotation_lt x y) ?_
  dsimp only
  rw [← word_rhoPi, ← word_rhoPi, h]

/-- The bits of a row with one place are determined by those `chi` leaves there. -/
theorem chi_bits : ∀ a b c d e a' b' c' d' e' : Bool,
    (a ^^ (!b && c)) = (a' ^^ (!b' && c')) → (b ^^ (!c && d)) = (b' ^^ (!c' && d')) → (c ^^ (!d && e)) = (c' ^^ (!d' && e')) →
      (d ^^ (!e && a)) = (d' ^^ (!e' && a')) → (e ^^ (!a && b)) = (e' ^^ (!a' && b')) → a = a' := by
  decide

theorem bit_chi (s : State) (x y : Nat) (z : ZMod 64) :
    bit (word (chi s) x y) z = (bit (word s x y) z ^^ (!bit (word s (x + 1) y) z && bit (word s (x + 2) y) z)) := by
  rw [chi, word_tabulate, word_mod, word_mod_add, word_mod_add, bit_xor, bit_and, bit_not]

theorem chi_injective : Function.Injective chi := by
  intro s t h
  refine eq_of_words fun x y => eq_of_bits fun z => ?_
  have hbit (k : Nat) := congrArg (fun u => bit (word u (x + k) y) z) h
  simp only [bit_chi, Nat.add_assoc] at hbit
  have hturn (u : State) (k : Nat) : word u (x + (k + 5)) y = word u (x + k) y := by
    have hplace : (x + (k + 5)) % 5 = (x + k) % 5 := by omega
    rw [← word_mod, hplace, word_mod]
  have h3 := hbit 3
  have h4 := hbit 4
  rw [hturn s 0, hturn t 0] at h3
  rw [hturn s 0, hturn t 0, hturn s 1, hturn t 1] at h4
  exact chi_bits _ _ _ _ _ _ _ _ _ _ (hbit 0) (hbit 1) (hbit 2) h3 h4

/-! ## Columns -/

/-- A plane of bits added to two shifts of it, the second of them along both coordinates. -/
def spread (a b : ZMod 5) (c : ZMod 64) (p : ZMod 5 → ZMod 64 → Bool) (x : ZMod 5) (z : ZMod 64) : Bool :=
  p x z ^^ (p (x + a) z ^^ p (x + b) (z + c))

/-- In a sum of bits what occurs twice cancels. -/
theorem xor_cancel : ∀ p a b aa ab bb : Bool,
    ((p ^^ (a ^^ b)) ^^ ((a ^^ (aa ^^ ab)) ^^ (b ^^ (ab ^^ bb)))) = (p ^^ (aa ^^ bb)) := by
  decide

/-- Two spreads are one with doubled shifts. -/
theorem spread_spread (a b : ZMod 5) (c : ZMod 64) (p : ZMod 5 → ZMod 64 → Bool) :
    spread a b c (spread a b c p) = spread (2 * a) (2 * b) (2 * c) p := by
  funext x z
  have hab : x + b + a = x + a + b := add_right_comm x b a
  unfold spread
  rw [hab, two_mul, two_mul, two_mul, ← add_assoc x a a, ← add_assoc x b b, ← add_assoc z c c]
  exact xor_cancel _ _ _ _ _ _

/-- Spreads that agree agree after their shifts have been doubled any number of times. -/
theorem spread_doubled {a b : ZMod 5} {c : ZMod 64} {p q : ZMod 5 → ZMod 64 → Bool} (h : spread a b c p = spread a b c q)
    (k : Nat) : spread (2 ^ k * a) (2 ^ k * b) (2 ^ k * c) p = spread (2 ^ k * a) (2 ^ k * b) (2 ^ k * c) q := by
  induction k with
  | zero => simpa only [pow_zero, one_mul] using h
  | succ k ih => simp only [pow_succ', mul_assoc, ← spread_spread, ih]

/-- Without a shift along the columns three applications give a plane back; two of them are one with doubled shifts. -/
theorem spread_thrice (p : ZMod 5 → ZMod 64 → Bool) : spread 1 4 0 (spread 2 3 0 p) = p := by
  funext x z
  have h3 : (1 + 2 : ZMod 5) = 3 := rfl
  have h4 : (1 + 3 : ZMod 5) = 4 := rfl
  have h1 : (4 + 2 : ZMod 5) = 1 := rfl
  have h2 : (4 + 3 : ZMod 5) = 2 := rfl
  simp only [spread, add_assoc, add_zero, h1, h2, h3, h4]
  generalize p x z = b0, p (x + 1) z = b1, p (x + 2) z = b2, p (x + 3) z = b3, p (x + 4) z = b4
  revert b0 b1 b2 b3 b4
  decide

/-- The shifts of `theta` lose nothing of a plane. -/
theorem spread_injective : Function.Injective (spread 4 1 63) := by
  intro p q h
  have hsix : spread 1 4 0 p = spread 1 4 0 q := spread_doubled h 6
  have hseven : spread 2 3 0 p = spread 2 3 0 q := spread_doubled h 7
  rw [← spread_thrice p, ← spread_thrice q, hseven]

/-- The bits of the five columns of a state. -/
def plane (s : State) (x : ZMod 5) (z : ZMod 64) : Bool := bit (column s x.val) z

theorem column_mod (s : State) (x : Nat) : column s (x % 5) = column s x := by
  simp only [column, word, Nat.mod_mod]

/-- The mix of two columns that `theta` adds to a column. -/
def mix (s : State) (x : Nat) : UInt64 := column s (x + 4) ^^^ rotateLeft (column s (x + 1)) 1

theorem word_theta (s : State) (x y : Nat) : word (theta s) x y = word s x y ^^^ mix s x := by
  have hshift (k : Nat) : column s (x % 5 + k) = column s (x + k) := by simp only [column, word, Nat.mod_add_mod]
  rw [theta, word_tabulate, word_mod]
  simp only [Vector.getElem_ofFn, Nat.mod_mod, column_mod, hshift, mix]

/-- A column is the sum of five words, to each of which `theta` adds the same. -/
theorem column_theta (s : State) (x : Nat) : column (theta s) x = column s x ^^^ mix s x := by
  refine eq_of_bits fun z => ?_
  simp only [column, word_theta, bit_xor]
  generalize bit (word s x 0) z = b0, bit (word s x 1) z = b1, bit (word s x 2) z = b2, bit (word s x 3) z = b3,
    bit (word s x 4) z = b4, bit (mix s x) z = m
  revert b0 b1 b2 b3 b4 m
  decide

/-- On the bits of the columns `theta` is a spread. -/
theorem plane_theta (s : State) : plane (theta s) = spread 4 1 63 (plane s) := by
  funext x z
  have h4 : column s (x + 4).val = column s (x.val + 4) := by
    rw [← column_mod s (x.val + 4)]
    exact congrArg _ (ZMod.val_add x 4)
  have h1 : column s (x + 1).val = column s (x.val + 1) := by
    rw [← column_mod s (x.val + 1)]
    exact congrArg _ (ZMod.val_add x 1)
  simp only [plane, spread, column_theta, mix, bit_xor, bit_rotateLeft_one, h4, h1]

theorem theta_injective : Function.Injective theta := by
  intro s t h
  have hplane : plane s = plane t := by
    apply spread_injective
    rw [← plane_theta, ← plane_theta, h]
  have hcolumn (x : Nat) : column s x = column t x := by
    refine eq_of_bits fun z => ?_
    have hbit := congrFun (congrFun hplane (x : ZMod 5)) z
    simpa only [plane, ZMod.val_natCast, column_mod] using hbit
  refine eq_of_words fun x y => ?_
  have hword : word (theta s) x y = word (theta t) x y := by rw [h]
  rw [word_theta, word_theta, mix, mix, hcolumn, hcolumn] at hword
  exact (UInt64.xor_left_inj _).1 hword

/-! ## The permutation -/

theorem round_injective (constant : UInt64) : Function.Injective fun s => round s constant :=
  (iota_injective constant).comp (chi_injective.comp (rhoPi_injective.comp theta_injective))

/-- Rounds with any constants keep states apart. -/
theorem foldl_round_injective (constants : List UInt64) : Function.Injective fun s => constants.foldl round s := by
  induction constants with
  | nil => exact fun s t h => h
  | cons constant constants ih => exact ih.comp (round_injective constant)

/-- Different states stay different under the permutation. -/
theorem permute_injective : Function.Injective permute := foldl_round_injective roundConstants

end ModuleLattice.Shake.Keccak
