import ModuleLattice.Ring.Poly
import ModuleLattice.Proofs.NoiseSampler

/-!
# Noise bit by bit

By its definition noise coefficient `i` of width `eta` has `2 * eta` bits of the buffer, from bit `2 * eta * i` on: the ones among
the first `eta` of them count for it, the ones among the others against it (`bitDifference`). The sampler counts in words, but the
words are stretches of the buffer (`digit_chunk`), and a chunk has as many bits as its coefficients have together, so the groups of
a coefficient are its own bits (`sample_bits`). What is read from a buffer is therefore settled by its first `64 * eta` bytes.
-/

namespace ModuleLattice

open Finset Digits

namespace NoiseWidth

/-- The noise coefficient that the bits of a byte string define. -/
def bitDifference (w : NoiseWidth) (bytes : Bytes) (i : Nat) : Int :=
  ∑ j ∈ range w.eta, (bitAt bytes (2 * w.eta * i + j) : Int) -
    ∑ j ∈ range w.eta, (bitAt bytes (2 * w.eta * i + w.eta + j) : Int)

/-! ## The bits of a coefficient -/

/-- The bits of a coefficient make up a field, of which the first group counts for the coefficient and the second against it. -/
theorem bitDifference_eq_ones (w : NoiseWidth) (bytes : Bytes) (i : Nat) :
    w.bitDifference bytes i = w.ones (field (2 * w.eta) bytes i) 0 - w.ones (field (2 * w.eta) bytes i) 1 := by
  have hbit {j : Nat} (hj : j < 2 * w.eta) : bitAt bytes (2 * w.eta * i + j) = digit 1 (field (2 * w.eta) bytes i) j := by
    rw [bitAt_field bytes i hj, digit, Nat.one_mul]
    rfl
  have hfirst : w.ones (field (2 * w.eta) bytes i) 0 = ∑ j ∈ range w.eta, bitAt bytes (2 * w.eta * i + j) := by
    refine sum_congr rfl fun j hj => ?_
    rw [mem_range] at hj
    rw [hbit (by omega), Nat.mul_zero, Nat.zero_add]
  have hsecond : w.ones (field (2 * w.eta) bytes i) 1 = ∑ j ∈ range w.eta, bitAt bytes (2 * w.eta * i + w.eta + j) := by
    refine sum_congr rfl fun j hj => ?_
    rw [mem_range] at hj
    rw [Nat.add_assoc, hbit (by omega), Nat.mul_one]
  rw [hfirst, hsecond, bitDifference, Nat.cast_sum, Nat.cast_sum]

theorem bitDifference_bounds (w : NoiseWidth) (bytes : Bytes) (i : Nat) :
    -(w.eta : Int) ≤ w.bitDifference bytes i ∧ w.bitDifference bytes i ≤ w.eta := by
  have hfirst := w.ones_le (field (2 * w.eta) bytes i) 0
  have hsecond := w.ones_le (field (2 * w.eta) bytes i) 1
  rw [bitDifference_eq_ones]
  omega

/-- The coefficients of a buffer have their bits in its first `64 * eta` bytes. -/
theorem bitDifference_take (w : NoiseWidth) (bytes : Bytes) {i : Nat} (hi : i < 256) :
    w.bitDifference (bytes.take (64 * w.eta)) i = w.bitDifference bytes i := by
  have hbit {j : Nat} (hj : j < 2 * w.eta) :
      bitAt (bytes.take (64 * w.eta)) (2 * w.eta * i + j) = bitAt bytes (2 * w.eta * i + j) := by
    have hplace : 2 * w.eta * i + j < 8 * (64 * w.eta) := by cases w <;> simp only [eta] at hj ⊢ <;> omega
    have hstretch := @bitAt_stretch bytes 0 _ _ hplace
    rwa [List.drop_zero, Nat.mul_zero, Nat.zero_add] at hstretch
  have hfield : field (2 * w.eta) (bytes.take (64 * w.eta)) i = field (2 * w.eta) bytes i := by
    refine congrArg (value 1) (List.map_congr_left fun j hj => hbit (List.mem_range.1 hj))
  rw [bitDifference_eq_ones, bitDifference_eq_ones, hfield]

/-! ## The sampler's chunks -/

/-- The bits of a chunk are bits of the buffer. -/
theorem digit_chunk (w : NoiseWidth) (buffer : Bytes) (k : Nat) {j : Nat} (hj : j < 8 * w.chunkBytes) :
    digit 1 (w.chunk buffer k).toNat j = bitAt buffer (8 * (w.chunkBytes * k) + j) := by
  let part := (buffer.drop (w.chunkBytes * k)).take w.chunkBytes
  have hshort : 8 * (part.map UInt8.toNat).length ≤ 32 := by
    have hlength : part.length ≤ w.chunkBytes := List.length_take_le _ _
    have hbytes : w.chunkBytes ≤ 4 := by cases w <;> decide
    rw [List.length_map]
    omega
  have hfits : value 8 (part.map UInt8.toNat) < 2 ^ 32 :=
    (value_lt (bytes_lt part)).trans_le (Nat.pow_le_pow_right (by decide) hshort)
  have hword : (w.chunk buffer k).toNat = value 8 (part.map UInt8.toNat) := UInt32.toNat_ofNat_of_lt' hfits
  rw [hword, ← bitAt_eq_digit, bitAt_stretch hj]

/-- The ones of a group of a chunk are ones of the buffer. -/
theorem ones_chunk (w : NoiseWidth) (buffer : Bytes) (k : Nat) {g : Nat} (hg : g < w.groups) :
    w.ones (w.chunk buffer k).toNat g = ∑ j ∈ range w.eta, bitAt buffer (8 * (w.chunkBytes * k) + (w.eta * g + j)) := by
  refine sum_congr rfl fun j hj => w.digit_chunk buffer k ?_
  rw [mem_range] at hj
  cases w <;> simp only [eta, chunkBytes, groups, chunkCoefficients] at hj hg ⊢ <;> omega

/-- A buffer that is long enough is sampled bit by bit. -/
theorem sample_bits (w : NoiseWidth) {buffer : Bytes} (h : 64 * w.eta ≤ buffer.length) :
    ∃ x, w.sample buffer = .ok x ∧ ∀ i : Fin 256, (x.get i).toInt = w.bitDifference buffer i := by
  obtain ⟨x, hx, hvalues⟩ := w.sample_spec h
  refine ⟨x, hx, fun i => ?_⟩
  have hpos : 0 < w.chunkCoefficients := by cases w <;> decide
  have hgroups : w.groups = 2 * w.chunkCoefficients := rfl
  have hplace := Nat.mod_lt i hpos
  -- chunk by chunk, the bits of the coefficients follow each other without a gap
  have hstart : 8 * (w.chunkBytes * (i / w.chunkCoefficients)) + w.eta * (2 * (i % w.chunkCoefficients)) = 2 * w.eta * i := by
    cases w <;> simp only [eta, chunkBytes, chunkCoefficients] <;> omega
  have hnext : w.eta * (2 * (i % w.chunkCoefficients) + 1) = w.eta * (2 * (i % w.chunkCoefficients)) + w.eta := Nat.mul_succ _ _
  rw [hvalues, ones_chunk w buffer _ (by omega), ones_chunk w buffer _ (by omega), hnext, bitDifference, Nat.cast_sum, Nat.cast_sum]
  simp only [← Nat.add_assoc, hstart]

/-- What is sampled from a buffer that is long enough is what its bits define. -/
theorem sample_eq_ok_iff (w : NoiseWidth) {buffer : Bytes} (h : 64 * w.eta ≤ buffer.length) {x : Coeffs 256} :
    w.sample buffer = .ok x ↔ ∀ i : Fin 256, (x.get i).toInt = w.bitDifference buffer i := by
  obtain ⟨x', hx', hvalues⟩ := w.sample_bits h
  rw [hx', Except.ok.injEq]
  constructor
  · rintro rfl
    exact hvalues
  · intro hx
    ext1 i hi
    exact Int16.toInt.inj ((hvalues ⟨i, hi⟩).trans (hx ⟨i, hi⟩).symm)

/-- Buffers that are long enough and begin alike are sampled alike. -/
theorem sample_congr (w : NoiseWidth) {buffer buffer' : Bytes} (h : 64 * w.eta ≤ buffer.length)
    (hbegin : buffer'.take (64 * w.eta) = buffer.take (64 * w.eta)) : w.sample buffer' = w.sample buffer := by
  have hlength := congrArg List.length hbegin
  rw [List.length_take, List.length_take] at hlength
  have h' : 64 * w.eta ≤ buffer'.length := by omega
  obtain ⟨x, hx, hvalues⟩ := w.sample_bits h
  rw [hx, w.sample_eq_ok_iff h']
  intro i
  rw [hvalues, ← w.bitDifference_take buffer i.isLt, ← hbegin, w.bitDifference_take buffer' i.isLt]

/-- A buffer that is too short is refused. -/
theorem sample_short (w : NoiseWidth) {buffer : Bytes} (h : buffer.length < 64 * w.eta) :
    w.sample buffer = .error .noiseBuffer := by
  have hshort : ¬w.bufferBytes ≤ buffer.length := Nat.not_le.2 h
  rw [sample, ensure, if_neg hshort]
  rfl

end NoiseWidth

/-- A noise polynomial has the coefficients that are sampled. -/
theorem Poly.noiseOfBytes_eq_ok_iff {w : NoiseWidth} {buffer : Bytes} {p : Poly} :
    Poly.noiseOfBytes w buffer = .ok p ↔ w.sample buffer = .ok p.coeffs := by
  rw [Poly.noiseOfBytes, bind_eq_ok_iff]
  constructor
  · rintro ⟨x, hx, hp⟩
    rw [hx, ← Except.ok.inj hp]
  · exact fun hx => ⟨p.coeffs, hx, rfl⟩

/-- Noise is sampled bit by bit. A buffer of at least `64 * eta` bytes is always sampled; each coefficient is the number of ones among
its first `eta` bits less the number of ones among its other `eta` bits, and so lies between `-eta` and `eta`; and every buffer
with the same first `64 * eta` bytes gives the same polynomial. A shorter buffer is refused. -/
theorem noise_of_bits (w : NoiseWidth) (buffer : Bytes) :
    (64 * w.eta ≤ buffer.length →
      ∃ p : Poly, Poly.noiseOfBytes w buffer = .ok p ∧
        (∀ i : Fin 256, (p.coeffs.get i).toInt = w.bitDifference buffer i) ∧
        (∀ i : Fin 256, -(w.eta : Int) ≤ (p.coeffs.get i).toInt ∧ (p.coeffs.get i).toInt ≤ w.eta) ∧
        ∀ buffer' : Bytes, buffer'.take (64 * w.eta) = buffer.take (64 * w.eta) → Poly.noiseOfBytes w buffer' = .ok p) ∧
      (buffer.length < 64 * w.eta → Poly.noiseOfBytes w buffer = .error .noiseBuffer) := by
  constructor
  · intro hlong
    obtain ⟨x, hx, hvalues⟩ := w.sample_bits hlong
    refine ⟨⟨x⟩, Poly.noiseOfBytes_eq_ok_iff.2 hx, hvalues, fun i => ?_, fun buffer' hbegin => ?_⟩
    · rw [hvalues]
      exact w.bitDifference_bounds buffer i
    · rw [Poly.noiseOfBytes_eq_ok_iff, w.sample_congr hlong hbegin, hx]
  · intro hshort
    rw [Poly.noiseOfBytes, w.sample_short hshort]
    rfl

/-- Bytes of the bits 11000011 give coefficients 2 and -2 by turns, whatever follows the 128 bytes that are needed. -/
theorem noise_of_bits_alternating :
    64 * NoiseWidth.two.eta ≤ (List.replicate 128 (0xC3 : UInt8)).length ∧
      (List.replicate 128 (0xC3 : UInt8) ++ [1, 2, 3]).take (64 * NoiseWidth.two.eta) =
        (List.replicate 128 (0xC3 : UInt8)).take (64 * NoiseWidth.two.eta) ∧
      (List.replicate 127 (0xC3 : UInt8)).length < 64 * NoiseWidth.two.eta ∧
      (∃ p : Poly, Poly.noiseOfBytes .two (List.replicate 128 0xC3) = .ok p ∧
        (∀ i : Fin 256, (p.coeffs.get i).toInt = if i.val % 2 = 0 then 2 else -2) ∧
        Poly.noiseOfBytes .two (List.replicate 128 0xC3 ++ [1, 2, 3]) = .ok p) ∧
      Poly.noiseOfBytes .two (List.replicate 127 0xC3) = .error .noiseBuffer := by
  have hlong : 64 * NoiseWidth.two.eta ≤ (List.replicate 128 (0xC3 : UInt8)).length := List.length_replicate.ge
  have hbegin : (List.replicate 128 (0xC3 : UInt8) ++ [1, 2, 3]).take (64 * NoiseWidth.two.eta) =
      (List.replicate 128 (0xC3 : UInt8)).take (64 * NoiseWidth.two.eta) := List.take_append_of_le_length hlong
  have hshort : (List.replicate 127 (0xC3 : UInt8)).length < 64 * NoiseWidth.two.eta := by
    rw [List.length_replicate]
    decide
  have hbits : ∀ i : Fin 256, NoiseWidth.two.bitDifference (List.replicate 128 0xC3) i = if i.val % 2 = 0 then 2 else -2 := by
    decide +kernel
  obtain ⟨p, hp, hvalues, -, hsame⟩ := (noise_of_bits .two (List.replicate 128 0xC3)).1 hlong
  refine ⟨hlong, hbegin, hshort, ⟨p, hp, fun i => ?_, hsame _ hbegin⟩, (noise_of_bits .two (List.replicate 127 0xC3)).2 hshort⟩
  rw [hvalues, hbits]

end ModuleLattice
