import ModuleLattice.Shake.Sponge
import ModuleLattice.Proofs.Digits

/-!
# A sponge state byte by byte

A sponge reaches its state one byte at a time: adding a byte shifts it to its place within a word, reading one shifts the word
down. `State.byteAt` is the view behind both. A state is determined by its 200 bytes (`State.eq_of_bytes`), and adding bytes
changes the bytes at their places and no others (`State.byteAt_xorByte`, `State.byteAt_xorBytes`); no later proof looks into
the words.
-/

namespace ModuleLattice.Shake

/-! ## The bytes of a word -/

/-- Byte `j` of a word, the lowest first. -/
def wordByte (w : UInt64) (j : Nat) : UInt8 := UInt8.ofNat (Digits.digit 8 w.toNat j)

theorem toNat_wordByte (w : UInt64) (j : Nat) : (wordByte w j).toNat = Digits.digit 8 w.toNat j := by
  rw [wordByte, UInt8.toNat_ofNat']
  exact Nat.mod_eq_of_lt (Digits.digit_lt 8 w.toNat j)

/-- A word is determined by its eight bytes. -/
theorem word_eq_of_bytes {v w : UInt64} (h : ∀ j < 8, wordByte v j = wordByte w j) : v = w := by
  apply UInt64.toNat.inj
  refine @Digits.eq_of_digits 8 8 _ _ v.toNat_lt w.toNat_lt ?_
  intro j hj
  rw [← toNat_wordByte, ← toNat_wordByte, h j hj]

/-- The byte that is left when a word is shifted down. -/
theorem toUInt8_shiftRight (w : UInt64) {j : Nat} (hj : j < 8) : (w >>> UInt64.ofNat (8 * j)).toUInt8 = wordByte w j := by
  have hshift : (UInt64.ofNat (8 * j)).toNat % 64 = 8 * j := by
    rw [UInt64.toNat_ofNat']
    omega
  apply UInt8.toNat.inj
  rw [toNat_wordByte, UInt64.toNat_toUInt8, UInt64.toNat_shiftRight, hshift, Nat.shiftRight_eq_div_pow]
  rfl

/-- The bytes of a sum of words are the sums of the bytes. -/
theorem wordByte_xor (v w : UInt64) {j : Nat} (hj : j < 8) : wordByte (v ^^^ w) j = wordByte v j ^^^ wordByte w j := by
  have hshift : (v ^^^ w) >>> UInt64.ofNat (8 * j) = (v >>> UInt64.ofNat (8 * j)) ^^^ (w >>> UInt64.ofNat (8 * j)) := by
    apply UInt64.eq_of_toBitVec_eq
    simp [UInt64.toBitVec_shiftRight, BitVec.ushiftRight_xor_distrib]
  rw [← toUInt8_shiftRight _ hj, ← toUInt8_shiftRight _ hj, ← toUInt8_shiftRight _ hj, hshift, UInt64.toUInt8_xor]

/-- A byte at its place in a word is that byte of the word, and the others are zero. -/
theorem wordByte_placed (b : UInt8) (i j : Nat) : wordByte (placed b i) j = if j = i % 8 then b else 0 := by
  have hb := b.toNat_lt
  have hshift : (UInt64.ofNat (8 * (i % 8))).toNat % 64 = 8 * (i % 8) := by
    rw [UInt64.toNat_ofNat']
    omega
  have hword : (placed b i).toNat = b.toNat * 2 ^ (8 * (i % 8)) := by
    have hfits : b.toNat * 2 ^ (8 * (i % 8)) < 2 ^ 64 := by
      calc b.toNat * 2 ^ (8 * (i % 8)) < 2 ^ 8 * 2 ^ (8 * (i % 8)) := Nat.mul_lt_mul_of_pos_right hb (Nat.two_pow_pos _)
        _ = 2 ^ (8 + 8 * (i % 8)) := (pow_add 2 8 _).symm
        _ ≤ 2 ^ 64 := Nat.pow_le_pow_right (by decide) (by omega)
    rw [placed, UInt64.toNat_shiftLeft, UInt8.toNat_toUInt64, hshift, Nat.shiftLeft_eq]
    exact Nat.mod_eq_of_lt hfits
  apply UInt8.toNat.inj
  rw [toNat_wordByte, hword, Digits.digit_shift hb]
  split
  · rfl
  · rfl

/-! ## The bytes of a state -/

namespace State

/-- The byte at a place is a byte of the word at the place. -/
theorem byteAt_eq_wordByte (s : State) {i : Nat} (hi : i / 8 < 25) : s.byteAt i = wordByte s[i / 8] (i % 8) := by
  rw [byteAt, dif_pos hi]
  exact toUInt8_shiftRight _ (Nat.mod_lt i (by decide))

/-- A state is determined by its 200 bytes. -/
theorem eq_of_bytes {s t : State} (h : ∀ i < 200, s.byteAt i = t.byteAt i) : s = t := by
  ext k hk
  refine congrArg UInt64.toNat (word_eq_of_bytes ?_)
  intro j hj
  have hword : (8 * k + j) / 8 = k := by omega
  have hbyte : (8 * k + j) % 8 = j := by omega
  have hplace := h (8 * k + j) (by omega)
  rw [byteAt_eq_wordByte s (by omega), byteAt_eq_wordByte t (by omega)] at hplace
  simpa only [hword, hbyte] using hplace

/-- Adding a byte changes the byte at its place and no other. -/
theorem byteAt_xorByte (s : State) (b : UInt8) {i j : Nat} (hi : i < 200) :
    (s.xorByte i b).byteAt j = s.byteAt j ^^^ if j = i then b else 0 := by
  have hword : i / 8 < 25 := by omega
  by_cases hj : j / 8 < 25
  · rw [byteAt_eq_wordByte _ hj, byteAt_eq_wordByte _ hj, xorByte, dif_pos hword, Vector.getElem_set]
    by_cases hsame : i / 8 = j / 8
    · have hplace : j % 8 = i % 8 ↔ j = i := by omega
      simp only [hsame, if_true, wordByte_xor _ _ (Nat.mod_lt j (by decide : 0 < 8)), wordByte_placed, hplace]
    · have hplace : j ≠ i := by
        rintro rfl
        exact hsame rfl
      rw [if_neg hsame, if_neg hplace, UInt8.xor_zero]
  · have hplace : j ≠ i := by omega
    simp [byteAt, hj, hplace]

/-- Adding bytes changes the bytes at their places and no others. -/
theorem byteAt_xorBytesFrom (s : State) (bs : Bytes) {i j : Nat} (hi : i + bs.length ≤ 200) :
    (s.xorBytesFrom i bs).byteAt j = s.byteAt j ^^^ if i ≤ j then bs.getD (j - i) 0 else 0 := by
  induction bs generalizing s i with
  | nil => simp [xorBytesFrom]
  | cons b bs ih =>
    rw [List.length_cons] at hi
    rw [xorBytesFrom, ih _ (by omega), byteAt_xorByte s b (by omega), UInt8.xor_assoc]
    rcases Nat.lt_trichotomy j i with hlt | rfl | hgt
    · rw [if_neg (by omega), if_neg (by omega), if_neg (by omega), UInt8.xor_zero]
    · rw [if_pos rfl, if_neg (by omega), if_pos (Nat.le_refl j), Nat.sub_self, List.getD_cons_zero, UInt8.xor_zero]
    · have hplace : j - i = j - (i + 1) + 1 := by omega
      rw [if_neg (by omega), if_pos (by omega), if_pos (by omega), hplace, List.getD_cons_succ, UInt8.zero_xor]

/-- Adding bytes to the front of a state. -/
theorem byteAt_xorBytes (s : State) {bs : Bytes} (hbs : bs.length ≤ 200) (j : Nat) :
    (s.xorBytes bs).byteAt j = s.byteAt j ^^^ bs.getD j 0 := by
  rw [xorBytes, byteAt_xorBytesFrom s bs (by omega), if_pos (Nat.zero_le j), Nat.sub_zero]

/-- Bytes added to the front of a state can be told from the sum. -/
theorem eq_of_xorBytes_eq {s : State} {bs cs : Bytes} (hlen : bs.length = cs.length) (hbs : bs.length ≤ 200)
    (h : s.xorBytes bs = s.xorBytes cs) : bs = cs := by
  refine List.ext_getElem hlen ?_
  intro j hj hj'
  have hbyte := congrArg (fun t : State => t.byteAt j) h
  simp only [byteAt_xorBytes s hbs, byteAt_xorBytes s (hlen ▸ hbs), UInt8.xor_right_inj] at hbyte
  rwa [List.getD_eq_getElem _ _ hj, List.getD_eq_getElem _ _ hj'] at hbyte

/-- A state to whose front given bytes were added can be told from the sum. -/
theorem xorBytes_injective {bs : Bytes} (hbs : bs.length ≤ 200) : Function.Injective fun s : State => s.xorBytes bs := by
  intro s t h
  refine eq_of_bytes ?_
  intro j _
  have hbyte := congrArg (fun u : State => u.byteAt j) h
  simp only [byteAt_xorBytes _ hbs, UInt8.xor_left_inj] at hbyte
  exact hbyte

end State

end ModuleLattice.Shake
