import ModuleLattice.Ring.Poly
import ModuleLattice.Proofs.NoiseSampler
import ModuleLattice.Proofs.OutputPrefix

/-!
# Noise from a batch

A batch of noise runs four nonces through one batch of sponges, whose lanes deliver the output of four single sponges. In a batch
of two widths every lane delivers as many bytes as the wider one needs; since a shorter output is the beginning of a longer one,
what the narrower width keeps is what its own sponge would have delivered. So each lane gives the polynomial of its nonce alone
(`noise_batch_eq_single`).
-/

namespace ModuleLattice

namespace NoiseWidth

variable (f : Shake.State → Shake.State)

/-- Noise can always be derived. -/
theorem derive_answers (w : NoiseWidth) (seed : Seed) (nonce : UInt8) : ∃ x, w.derive f seed nonce = .ok x := by
  have hlength := Shake.length_squeeze f Shake.rate256 w.bufferBytes (Shake.absorb f Shake.rate256 (derivationInput seed nonce))
  obtain ⟨x, hx, -⟩ := w.sample_spec hlength.ge
  exact ⟨x, hx⟩

/-- Each lane of a batch delivers the bytes of its nonce. -/
theorem batchBytes_eq (layout : Shake.Layout) (n : Nat) (seed : Seed) (nonces : Vector UInt8 4) :
    batchBytes layout f n seed nonces = .ok (nonces.map fun nonce => Shake.shake256 f n (derivationInput seed nonce)) := by
  have hagree : Shake.Agree ((nonces.map (derivationInput seed)).map List.length) := by
    intro i j
    simp [derivationInput]
  rw [batchBytes, Shake.shake256Batch_eq_map layout f n hagree, Vector.map_map]
  rfl

/-- The first bytes of a longer output are the shorter output. -/
theorem take_shake256 {m n : Nat} (h : m ≤ n) (input : Bytes) : (Shake.shake256 f n input).take m = Shake.shake256 f m input := by
  have htake := List.prefix_iff_eq_take.1 (Shake.isPrefix_squeeze f Shake.rate256 h (Shake.absorb f Shake.rate256 input))
  rw [Shake.length_squeeze] at htake
  exact htake.symm

/-- Four lanes, each with a width of its own and with `n` bytes of which it takes the first ones, have the noise of their nonces. -/
theorem sample_lanes (width : Fin 4 → NoiseWidth) {n : Nat} (h : ∀ lane, (width lane).bufferBytes ≤ n) (seed : Seed)
    (nonces : Vector UInt8 4) :
    ∃ xs : Vector (Coeffs 256) 4, (Vector.ofFnM fun lane : Fin 4 => (width lane).sample
        ((Shake.shake256 f n (derivationInput seed (nonces.get lane))).take (width lane).bufferBytes)) = .ok xs ∧
      ∀ lane : Fin 4, (width lane).derive f seed (nonces.get lane) = .ok (xs.get lane) := by
  choose x hx using fun lane : Fin 4 => derive_answers f (width lane) seed (nonces.get lane)
  refine ⟨Vector.ofFn x, ofFnM_eq_ok_iff.2 fun lane => ?_, fun lane => ?_⟩
  · rw [get_ofFn, take_shake256 f (h lane)]
    exact hx lane
  · rw [get_ofFn]
    exact hx lane

/-- A batch of one width has the noise of each nonce in its lane. -/
theorem deriveBatch_eq (layout : Shake.Layout) (w : NoiseWidth) (seed : Seed) (nonces : Vector UInt8 4) :
    ∃ xs : Vector (Coeffs 256) 4, w.deriveBatch layout f seed nonces = .ok xs ∧
      ∀ lane : Fin 4, w.derive f seed (nonces.get lane) = .ok (xs.get lane) := by
  obtain ⟨xs, hxs, hlanes⟩ := sample_lanes f (fun _ => w) (fun _ => le_rfl) seed nonces
  refine ⟨xs, ?_, hlanes⟩
  simp only [take_shake256 f le_rfl] at hxs
  rw [deriveBatch, batchBytes_eq, ok_bind, ← hxs]
  simp only [get_map]

/-- A batch of two widths has the noise of each nonce in its lane, of the first width in the first two lanes and of the second in
the last two. -/
theorem deriveMixedBatch_eq (layout : Shake.Layout) (first second : NoiseWidth) (seed : Seed) (nonces : Vector UInt8 4) :
    ∃ xs : Vector (Coeffs 256) 4, deriveMixedBatch layout f first second seed nonces = .ok xs ∧
      ∀ lane : Fin 4, (if lane.val < 2 then first else second).derive f seed (nonces.get lane) = .ok (xs.get lane) := by
  have hfits : ∀ lane : Fin 4, (if lane.val < 2 then first else second).bufferBytes ≤ max first.bufferBytes second.bufferBytes := by
    intro lane
    split
    · exact le_max_left _ _
    · exact le_max_right _ _
  obtain ⟨xs, hxs, hlanes⟩ := sample_lanes f _ hfits seed nonces
  refine ⟨xs, ?_, hlanes⟩
  rw [deriveMixedBatch, batchBytes_eq, ok_bind, ← hxs]
  simp only [get_map]

end NoiseWidth

/-- Noise from a batch is noise derived nonce by nonce. For every function in place of the permutation, in both layouts and for any
four nonces, a batch of one width answers with the four polynomials that the nonces give on their own; and a batch of any two
widths, equal or not and in either order, with those of the first width for the first two nonces and of the second for the last
two. -/
theorem noise_batch_eq_single (layout : Shake.Layout) (f : Shake.State → Shake.State) (seed : Seed) (nonces : Vector UInt8 4) :
    (∀ w : NoiseWidth, ∃ ps : Vector Poly 4, Poly.noiseBatch layout f w seed nonces = .ok ps ∧
        ∀ lane : Fin 4, Poly.noise f w seed (nonces.get lane) = .ok (ps.get lane)) ∧
      ∀ first second : NoiseWidth, ∃ ps : Vector Poly 4, Poly.noiseMixedBatch layout f first second seed nonces = .ok ps ∧
        ∀ lane : Fin 4, Poly.noise f (if lane.val < 2 then first else second) seed (nonces.get lane) = .ok (ps.get lane) := by
  constructor
  · intro w
    obtain ⟨xs, hbatch, hlanes⟩ := NoiseWidth.deriveBatch_eq f layout w seed nonces
    refine ⟨xs.map Poly.mk, by rw [Poly.noiseBatch, hbatch]; rfl, ?_⟩
    intro lane
    rw [get_map, Poly.noise, hlanes]
    rfl
  · intro first second
    obtain ⟨xs, hbatch, hlanes⟩ := NoiseWidth.deriveMixedBatch_eq f layout first second seed nonces
    refine ⟨xs.map Poly.mk, by rw [Poly.noiseMixedBatch, hbatch]; rfl, ?_⟩
    intro lane
    rw [get_map, Poly.noise, hlanes]
    rfl

end ModuleLattice
