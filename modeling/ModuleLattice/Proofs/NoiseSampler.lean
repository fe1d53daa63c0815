import ModuleLattice.Sampling.Noise
import ModuleLattice.Proofs.CheckedWord
import ModuleLattice.Proofs.Codecs
import Mathlib.Algebra.BigOperators.Fin
import Mathlib.Algebra.Order.BigOperators.Group.Finset

/-!
# The noise sampler

The sampler adds masked copies of a word, and so counts ones in all groups of `eta` bits at once. In digits of `eta` bits a masked
copy has digits zero and one, as many copies as there are bits add up to at most `eta` in every digit, and `eta` is below
`2 ^ eta`: no digit carries into the next, so the digits of the sum are the counts (`digit_counts`). A coefficient is a difference
of two of them, fits its word and keeps its promised range, so a buffer that is long enough is always sampled (`sample_spec`).
-/

namespace ModuleLattice

open Finset Digits

/-! ## Digits of masked words and of sums -/

namespace Digits

variable {bits : Nat}

/-- A digit under a mask. -/
theorem digit_and (bits n mask i : Nat) : digit bits (n &&& mask) i = digit bits n i &&& digit bits mask i := by
  simp only [digit, Nat.pow_eq, ← Nat.shiftRight_eq_div_pow, Nat.shiftRight_and_distrib, Nat.and_mod_two_pow]

/-- Where no digit carries, the digits of a sum are the sums of the digits. -/
theorem digit_add {a b : Nat} (h : ∀ i, digit bits a i + digit bits b i < 2 ^ bits) (i : Nat) :
    digit bits (a + b) i = digit bits a i + digit bits b i := by
  induction i generalizing a b with
  | zero =>
    have hlow := h 0
    rw [digit_zero, digit_zero] at hlow
    rw [digit_zero, digit_zero, digit_zero, Nat.add_mod, Nat.mod_eq_of_lt hlow]
  | succ i ih =>
    have hlow := h 0
    rw [digit_zero, digit_zero] at hlow
    rw [digit_succ, digit_succ, digit_succ, Nat.add_div_eq_of_add_mod_lt hlow]
    exact ih fun j => by simpa only [digit_succ] using h (j + 1)

end Digits

namespace NoiseWidth

/-! ## Counting in parallel -/

/-- The number of ones among the bits of group `k` of a word. -/
def ones (w : NoiseWidth) (n k : Nat) : Nat := ∑ j ∈ range w.eta, digit 1 n (w.eta * k + j)

theorem ones_le (w : NoiseWidth) (n k : Nat) : w.ones n k ≤ w.eta := by
  have hbit : ∀ j ∈ range w.eta, digit 1 n (w.eta * k + j) ≤ 1 := fun j _ => Nat.le_of_lt_succ (digit_lt 1 n _)
  calc w.ones n k ≤ ∑ _j ∈ range w.eta, 1 := sum_le_sum hbit
    _ = w.eta := by simp

/-- The number of groups of a chunk. -/
def groups (w : NoiseWidth) : Nat := 2 * w.chunkCoefficients

/-- The mask has a one in every group, and nothing behind the groups. -/
theorem digit_lowBits (w : NoiseWidth) (k : Nat) : digit w.eta w.lowBits.toNat k = if k < w.groups then 1 else 0 := by
  split
  · rename_i hk
    cases w with
    | two =>
      have h : ∀ k < 16, digit 2 0x55555555 k = 1 := by decide
      exact h k hk
    | three =>
      have h : ∀ k < 8, digit 3 0x00249249 k = 1 := by decide
      exact h k hk
  · rename_i hk
    have hlow : w.lowBits.toNat < 2 ^ (w.eta * w.groups) := by cases w <;> decide
    have hshort : w.lowBits.toNat < 2 ^ (w.eta * k) :=
      hlow.trans_le (Nat.pow_le_pow_right (by decide) (Nat.mul_le_mul_left _ (Nat.le_of_not_lt hk)))
    rw [digit, Nat.pow_eq, Nat.pow_eq, Nat.div_eq_of_lt hshort, Nat.zero_mod]

/-- A masked copy of a word, shifted by `s`. -/
def masked (w : NoiseWidth) (n s : Nat) : Nat := n / 2 ^ s &&& w.lowBits.toNat

/-- A masked copy has bit `s` of every group as the group's digit, and nothing behind the groups. -/
theorem digit_masked (w : NoiseWidth) (n s k : Nat) :
    digit w.eta (w.masked n s) k = if k < w.groups then digit 1 n (w.eta * k + s) else 0 := by
  have heta : 2 ∣ 2 ^ w.eta := by cases w <;> decide
  have hbit : digit w.eta (n / 2 ^ s) k % 2 = digit 1 n (w.eta * k + s) := by
    rw [digit, digit, Nat.pow_eq, Nat.pow_eq, Nat.pow_eq, Nat.pow_eq, Nat.mod_mod_of_dvd _ heta, Nat.div_div_eq_div_mul, ← pow_add,
      Nat.one_mul, Nat.add_comm s, pow_one]
  rw [masked, digit_and, digit_lowBits]
  split
  · rw [Nat.and_one_is_mod, hbit]
  · rw [Nat.and_zero]

theorem masked_le (w : NoiseWidth) (n s : Nat) : w.masked n s ≤ w.lowBits.toNat := Nat.and_le_right

/-- Shifting and masking a word gives a masked copy. -/
theorem toNat_shift_and (w : NoiseWidth) (t s : UInt32) (hs : s.toNat < 32) :
    (t >>> s &&& w.lowBits).toNat = w.masked t.toNat s.toNat := by
  rw [UInt32.toNat_and, UInt32.toNat_shiftRight, Nat.mod_eq_of_lt hs, Nat.shiftRight_eq_div_pow, masked]

/-- The word of counts is the sum of as many copies as a group has bits. -/
theorem toNat_counts (w : NoiseWidth) (t : UInt32) : (w.counts t).toNat = ∑ s ∈ range w.eta, w.masked t.toNat s := by
  have h0 : (t &&& w.lowBits).toNat = w.masked t.toNat 0 := by
    rw [UInt32.toNat_and, masked, pow_zero, Nat.div_one]
  have h1 : (t >>> 1 &&& w.lowBits).toNat = w.masked t.toNat 1 := w.toNat_shift_and t 1 (by decide)
  have h2 : (t >>> 2 &&& w.lowBits).toNat = w.masked t.toNat 2 := w.toNat_shift_and t 2 (by decide)
  have hle0 := w.masked_le t.toNat 0
  have hle1 := w.masked_le t.toNat 1
  have hle2 := w.masked_le t.toNat 2
  -- two masks of the first width and three of the second still fit the word
  cases w with
  | two =>
    have hmask : (lowBits .two).toNat = 0x55555555 := rfl
    rw [counts, UInt32.toNat_add, h0, h1, Nat.mod_eq_of_lt (by omega)]
    simp [eta, sum_range_succ]
  | three =>
    have hmask : (lowBits .three).toNat = 0x00249249 := rfl
    rw [counts, UInt32.toNat_add, UInt32.toNat_add, h0, h1, h2, Nat.mod_eq_of_lt (by omega), Nat.mod_eq_of_lt (by omega)]
    simp [eta, sum_range_succ]

theorem digit_masked_le (w : NoiseWidth) (n s k : Nat) : digit w.eta (w.masked n s) k ≤ 1 := by
  have hbit := digit_lt 1 n (w.eta * k + s)
  rw [digit_masked]
  split <;> omega

/-- The digits of a sum of at most `eta` copies are the sums of their digits. -/
theorem digit_sum_masked (w : NoiseWidth) (n : Nat) {m : Nat} (hm : m ≤ w.eta) (k : Nat) :
    digit w.eta (∑ s ∈ range m, w.masked n s) k = ∑ s ∈ range m, digit w.eta (w.masked n s) k := by
  induction m generalizing k with
  | zero => simp [digit]
  | succ m ih =>
    -- so far there are at most `m` in each digit, and the next copy adds one at most
    have hcarry : ∀ i, digit w.eta (∑ s ∈ range m, w.masked n s) i + digit w.eta (w.masked n m) i < 2 ^ w.eta := by
      intro i
      have hsum : ∑ s ∈ range m, digit w.eta (w.masked n s) i ≤ ∑ _s ∈ range m, 1 :=
        sum_le_sum fun s _ => w.digit_masked_le n s i
      rw [sum_const, card_range, smul_eq_mul, Nat.mul_one] at hsum
      have hlast := w.digit_masked_le n m i
      have heta := Nat.lt_two_pow_self (n := w.eta)
      rw [ih (by omega)]
      omega
    rw [sum_range_succ, sum_range_succ, digit_add hcarry, ih (by omega)]

/-- Digit by digit, the counts are sums of bits. -/
theorem digit_counts (w : NoiseWidth) (t : UInt32) {k : Nat} (hk : k < w.groups) :
    digit w.eta (w.counts t).toNat k = w.ones t.toNat k := by
  rw [toNat_counts, w.digit_sum_masked t.toNat le_rfl, ones]
  refine sum_congr rfl fun s _ => ?_
  rw [digit_masked, if_pos hk]

/-! ## Coefficients -/

/-- A group taken out of a word of counts is the digit at its place. -/
theorem toInt_group (w : NoiseWidth) (c : UInt32) {k : Nat} (hk : k < w.groups) : (w.group c k).toInt = digit w.eta c.toNat k := by
  have heta : w.eta ≤ 3 := by cases w <;> decide
  have hplaces : w.eta * k < 32 := (Nat.mul_lt_mul_of_pos_left hk (by cases w <;> decide)).trans_le (by cases w <;> decide)
  have hshift : (UInt32.ofNat (w.eta * k)).toNat % 32 = w.eta * k := by
    rw [UInt32.toNat_ofNat_of_lt' (hplaces.trans (by decide)), Nat.mod_eq_of_lt hplaces]
  have hmask : (UInt32.ofNat (Nat.pow 2 w.eta - 1)).toNat = 2 ^ w.eta - 1 := by cases w <;> rfl
  have hlt : digit w.eta c.toNat k < 2 ^ 3 := (digit_lt _ _ _).trans_le (Nat.pow_le_pow_right (by decide) heta)
  have hword : ((c >>> UInt32.ofNat (w.eta * k)) &&& UInt32.ofNat (Nat.pow 2 w.eta - 1)).toUInt16.toNat =
      digit w.eta c.toNat k := by
    rw [UInt32.toNat_toUInt16, UInt32.toNat_and, UInt32.toNat_shiftRight, hshift, hmask, Nat.and_two_pow_sub_one_eq_mod,
      Nat.shiftRight_eq_div_pow]
    exact Nat.mod_eq_of_lt (hlt.trans (by decide))
  rw [group, toInt_toInt16 (by omega), hword]

/-- A coefficient of a chunk is the ones of a group less the ones of the next. -/
theorem coefficient_spec (w : NoiseWidth) (t : UInt32) {j : Nat} (hj : j < w.chunkCoefficients) :
    ∃ c, w.coefficient t j = .ok c ∧ c.toInt = w.ones t.toNat (2 * j) - w.ones t.toNat (2 * j + 1) := by
  have hgroups : w.groups = 2 * w.chunkCoefficients := rfl
  have heta : w.eta ≤ 3 := by cases w <;> decide
  have hleft := w.ones_le t.toNat (2 * j)
  have hright := w.ones_le t.toNat (2 * j + 1)
  have hvalue (k : Nat) (hk : k < w.groups) : (w.group (w.counts t) k).toInt = w.ones t.toNat k := by
    rw [w.toInt_group _ hk, w.digit_counts t hk]
  have hfirst := hvalue (2 * j) (by omega)
  have hsecond := hvalue (2 * j + 1) (by omega)
  refine ⟨_, Word.sub16_eq_ok_iff.2 ⟨by omega, rfl⟩, ?_⟩
  rw [Word.toInt_sub16 (by omega), hfirst, hsecond]

/-- A buffer that is long enough is sampled, coefficient by coefficient. -/
theorem sample_spec (w : NoiseWidth) {buffer : Bytes} (h : w.bufferBytes ≤ buffer.length) :
    ∃ x, w.sample buffer = .ok x ∧ ∀ i : Fin 256,
      (x.get i).toInt = w.ones (w.chunk buffer (i / w.chunkCoefficients)).toNat (2 * (i % w.chunkCoefficients)) -
        w.ones (w.chunk buffer (i / w.chunkCoefficients)).toNat (2 * (i % w.chunkCoefficients) + 1) := by
  have hpos : 0 < w.chunkCoefficients := by cases w <;> decide
  obtain ⟨x, hloop, hvalues⟩ := ofFnM_answers fun i : Fin 256 =>
    w.coefficient_spec (w.chunk buffer (i / w.chunkCoefficients)) (Nat.mod_lt i hpos)
  refine ⟨x, ?_, hvalues⟩
  have hcheck : w.outputContract.require x = .ok () := by
    refine Contract.require_eq_ok_iff.2 fun i => ?_
    have hleft := w.ones_le (w.chunk buffer (i / w.chunkCoefficients)).toNat (2 * (i % w.chunkCoefficients))
    have hright := w.ones_le (w.chunk buffer (i / w.chunkCoefficients)).toNat (2 * (i % w.chunkCoefficients) + 1)
    have hrange : w.outputContract.range = .magnitudeBelow (w.eta + 1) := by cases w <;> rfl
    rw [hrange, magnitudeBelow_iff, hvalues i]
    omega
  rw [sample, ensure, if_pos h, ok_bind, hloop, ok_bind, hcheck, ok_bind]
  rfl

end NoiseWidth

end ModuleLattice
