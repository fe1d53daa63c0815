import ModuleLattice.Proofs.Decryption

/-!
# How much noise a message tolerates

A message is a polynomial with half the modulus, rounded up, where a bit is set. Whatever is added to its coefficients, as long as
the sums fit their words, a message is read from it again, and each bit is decided by what was added to its own coefficient
modulo 3329 (`noisyBit`). The two halves of the circle of residues that are read as zero and as one are not placed symmetrically: a
cleared bit withstands noise from -832 to 832, a set bit only up to 831 (`noise_tolerance`).
-/

namespace ModuleLattice

open Digits

/-! ## One coefficient -/

/-- The bit that is read from the coefficient of a bit with noise on it. -/
def noisyBit (bit : Nat) (noise : Int) : Int := (2 * ((1665 * bit + noise) % 3329) + 1664) / 3329 % 2

/-- A cleared bit is read as cleared exactly if the centred residue of the noise is from -832 to 832. -/
theorem noisyBit_zero_iff (noise : Int) : noisyBit 0 noise = 0 ↔ -832 ≤ noise.bmod 3329 ∧ noise.bmod 3329 ≤ 832 := by
  unfold noisyBit
  rw [Int.bmod_def]
  split <;> omega

/-- A set bit is read as set exactly if the centred residue of the noise is from -832 to 831. -/
theorem noisyBit_one_iff (noise : Int) : noisyBit 1 noise = 1 ↔ -832 ≤ noise.bmod 3329 ∧ noise.bmod 3329 ≤ 831 := by
  unfold noisyBit
  rw [Int.bmod_def]
  split <;> omega

/-- Only the class of the noise matters. -/
theorem noisyBit_congr {noise noise' : Int} (bit : Nat) (h : Int.ModEq 3329 noise noise') :
    noisyBit bit noise = noisyBit bit noise' := by
  have hsum : (1665 * bit + noise) % 3329 = (1665 * bit + noise') % 3329 := h.add_left (1665 * bit)
  rw [noisyBit, noisyBit, hsum]

/-! ## Messages -/

namespace Poly

/-- The polynomial of a message has half the modulus, rounded up, where a bit is set. -/
theorem ofMessage_spec (message : Vector UInt8 32) :
    ∃ p, ofMessage message = .ok p ∧ ∀ t : Fin 256, (p.coeffs.get t).toInt = 1665 * bitAt message.toList t := by
  obtain ⟨p, hp, -, hvalues⟩ := decompress_fields .one message.length_toList
  refine ⟨p, hp, fun t => ?_⟩
  have hbit := bitAt_lt message.toList t
  rw [hvalues, Width.bits, field_one]
  omega

/-- Noise can be added to the polynomial of a message exactly if no sum exceeds its word. -/
theorem add_ofMessage_iff {message : Vector UInt8 32} {e : Poly} :
    (∃ p s, ofMessage message = .ok p ∧ p.add e = .ok s) ↔
      ∀ t : Fin 256, 1665 * (bitAt message.toList t : Int) + (e.coeffs.get t).toInt < 32768 := by
  obtain ⟨p, hp, hvalues⟩ := ofMessage_spec message
  constructor
  · rintro ⟨p', s, hp', hs⟩ t
    obtain rfl : p = p' := Except.ok.inj (hp.symm.trans hp')
    obtain ⟨x, hx, -⟩ := bind_eq_ok_iff.1 hs
    rw [← hvalues]
    exact (Coeffs.add_eq_ok_iff.1 hx t).1.2
  · intro h
    have hadd : p.coeffs.add e.coeffs = .ok (Vector.ofFn fun t => p.coeffs.get t + e.coeffs.get t) := by
      refine Coeffs.add_eq_ok_iff.2 fun t => ?_
      have hsum := h t
      have hnoise := (e.coeffs.get t).le_toInt
      rw [hvalues, get_ofFn]
      exact ⟨by omega, rfl⟩
    exact ⟨p, ⟨_⟩, hp, bind_eq_ok_iff.2 ⟨_, hadd, rfl⟩⟩

/-- The message that is read from the polynomial of a message when noise has been added to it. -/
def receive (b : Backend) (message : Vector UInt8 32) (e : Poly) : Except Fault Bytes := do
  let p ← (← ofMessage message).add e
  (← p.reduce b).toMessage

/-- Where the noise can be added, a message is read, each bit from its own coefficient. -/
theorem receive_spec {message : Vector UInt8 32} {e p s : Poly} (hp : ofMessage message = .ok p) (hs : p.add e = .ok s) :
    ∃ received, (∀ b : Backend, receive b message e = .ok received) ∧ received.length = 32 ∧
      ∀ t : Fin 256, (bitAt received t : Int) = noisyBit (bitAt message.toList t) (e.coeffs.get t).toInt := by
  obtain ⟨p', hp', hvalues⟩ := ofMessage_spec message
  obtain rfl : p' = p := Except.ok.inj (hp'.symm.trans hp)
  have hsum : ∀ t : Fin 256, (s.coeffs.get t).toInt = 1665 * bitAt message.toList t + (e.coeffs.get t).toInt := by
    intro t
    obtain ⟨x, hx, hadd⟩ := bind_eq_ok_iff.1 hs
    have hcoefficient := Coeffs.integers_add hx t.isLt
    simp only [integers, entry_eq_get] at hcoefficient
    rw [← Except.ok.inj hadd, hcoefficient, hvalues]
  obtain ⟨received, hok, hlength, hbits⟩ :=
    @toMessage_spec ⟨s.coeffs.map Lane.canonical⟩ (Coeffs.canonical_map_canonical s.coeffs)
  refine ⟨received, ?_, hlength, ?_⟩
  · intro b
    rw [receive, hp, ok_bind, hs, ok_bind, reduce_eq_lane, ok_bind, hok]
  · intro t
    rw [hbits, get_map, (canonical_spec _).2, hsum, noisyBit]

/-- The bits of a message that was read. -/
theorem bitAt_received {b : Backend} {message : Vector UInt8 32} {e : Poly} {received : Bytes}
    (h : receive b message e = .ok received) (t : Fin 256) :
    (bitAt received t : Int) = noisyBit (bitAt message.toList t) (e.coeffs.get t).toInt := by
  obtain ⟨p, hp, hsum⟩ := bind_eq_ok_iff.1 h
  obtain ⟨s, hs, -⟩ := bind_eq_ok_iff.1 hsum
  obtain ⟨received', hok, -, hbits⟩ := receive_spec hp hs
  obtain rfl : received' = received := Except.ok.inj ((hok b).symm.trans h)
  exact hbits t

end Poly

/-- Messages tolerate just so much noise. Noise can be added to the polynomial of a message exactly if no sum exceeds its word.
Then every backend reads the same message of 32 bytes from the reduced sum; where a bit of the message is cleared, it is read as
it was exactly if the centred residue of its noise is from -832 to 832, and where it is set, exactly if it is from -832 to 831.
Each bit is decided by its own coefficient alone: in two messages with the same bit at a place and congruent noise on it, the same
bit is read there, whatever the other bits and their noise are. -/
theorem noise_tolerance :
    (∀ (message : Vector UInt8 32) (e : Poly),
      ((∃ p s, Poly.ofMessage message = .ok p ∧ p.add e = .ok s) ↔
        ∀ i : Fin 256, 1665 * (bitAt message.toList i : Int) + (e.coeffs.get i).toInt < 32768) ∧
      ((∃ p s, Poly.ofMessage message = .ok p ∧ p.add e = .ok s) →
        ∃ received : Bytes, (∀ b : Backend, Poly.receive b message e = .ok received) ∧ received.length = 32 ∧
          ∀ i : Fin 256,
            let noise := (e.coeffs.get i).toInt.bmod 3329
            (bitAt message.toList i = 0 →
              (bitAt received i = bitAt message.toList i ↔ -832 ≤ noise ∧ noise ≤ 832)) ∧
            (bitAt message.toList i = 1 →
              (bitAt received i = bitAt message.toList i ↔ -832 ≤ noise ∧ noise ≤ 831)))) ∧
    ∀ (b b' : Backend) (message message' : Vector UInt8 32) (e e' : Poly) (received received' : Bytes),
      Poly.receive b message e = .ok received → Poly.receive b' message' e' = .ok received' →
      ∀ i : Fin 256, bitAt message.toList i = bitAt message'.toList i →
        Int.ModEq 3329 (e.coeffs.get i).toInt (e'.coeffs.get i).toInt → bitAt received i = bitAt received' i := by
  constructor
  · intro message e
    refine ⟨Poly.add_ofMessage_iff, ?_⟩
    rintro ⟨p, s, hp, hs⟩
    obtain ⟨received, hok, hlength, hbits⟩ := Poly.receive_spec hp hs
    refine ⟨received, hok, hlength, fun i => ⟨fun hzero => ?_, fun hone => ?_⟩⟩
    · rw [← noisyBit_zero_iff, ← hzero, ← hbits, hzero]
      norm_cast
    · rw [← noisyBit_one_iff, ← hone, ← hbits, hone]
      norm_cast
  · intro b b' message message' e e' received received' h h' i hbit hnoise
    have hread := (Poly.bitAt_received h i).trans (noisyBit_congr _ hnoise)
    rw [hbit, ← Poly.bitAt_received h' i] at hread
    exact Int.ofNat.inj hread

/-- Noise of 832 everywhere flips the set bits of a message and leaves the others; so does the congruent noise of -2497. -/
theorem noise_tolerance_boundary :
    (∃ p s, Poly.ofMessage (Vector.replicate 32 0x0F) = .ok p ∧ p.add ⟨Vector.replicate 256 832⟩ = .ok s) ∧
      ∃ received received' : Bytes,
        (∀ b : Backend, Poly.receive b (Vector.replicate 32 0x0F) ⟨Vector.replicate 256 832⟩ = .ok received) ∧
        (∀ b : Backend, Poly.receive b (Vector.replicate 32 0x0F) ⟨Vector.replicate 256 (-2497)⟩ = .ok received') ∧
        (∀ i : Fin 256, bitAt (Vector.replicate 32 (0x0F : UInt8)).toList i = 0 → bitAt received i = 0) ∧
        (∀ i : Fin 256, bitAt (Vector.replicate 32 (0x0F : UInt8)).toList i = 1 → bitAt received i ≠ 1) ∧
        ∀ i : Fin 256, bitAt received i = bitAt received' i := by
  have hfits (c : Int16) (hc : c.toInt ≤ 832) (i : Fin 256) :
      1665 * (bitAt (Vector.replicate 32 (0x0F : UInt8)).toList i : Int) + ((Vector.replicate 256 c).get i).toInt < 32768 := by
    have hbit := bitAt_lt (Vector.replicate 32 (0x0F : UInt8)).toList i
    rw [get_replicate]
    omega
  obtain ⟨hread, hown⟩ := noise_tolerance
  obtain ⟨hadd, hreceive⟩ := hread (Vector.replicate 32 0x0F) ⟨Vector.replicate 256 832⟩
  obtain ⟨hadd', hreceive'⟩ := hread (Vector.replicate 32 0x0F) ⟨Vector.replicate 256 (-2497)⟩
  have hsum := hadd.2 (hfits 832 (by decide))
  obtain ⟨received, hok, -, hbits⟩ := hreceive hsum
  obtain ⟨received', hok', -⟩ := hreceive' (hadd'.2 (hfits (-2497) (by decide)))
  refine ⟨hsum, received, received', hok, hok', ?_, ?_, ?_⟩
  · intro i hi
    have hkept := (hbits i).1 hi
    dsimp only at hkept
    rw [get_replicate, hi] at hkept
    exact hkept.2 (by decide)
  · intro i hi
    have hkept := (hbits i).2 hi
    dsimp only at hkept
    rw [get_replicate, hi] at hkept
    exact fun h => absurd (hkept.1 h) (by decide)
  · intro i
    refine hown .reference .reference _ _ _ _ _ _ (hok _) (hok' _) i rfl ?_
    rw [get_replicate, get_replicate]
    rfl

end ModuleLattice
