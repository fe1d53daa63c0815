import ModuleLattice.Proofs.CompressedLayout
import ModuleLattice.Proofs.ModulusCheck
import ModuleLattice.Proofs.Preimage

/-!
# Untrusted bytes through the decryption

Decryption starts from three byte strings that anyone may have written: an encoded secret vector and the two compressed parts
of a ciphertext. Every stage delivers what the next one accepts. Decoding gives twelve-bit coefficients, which are not always
residues but always small enough for a left operand; decompression gives canonical ones, small enough for the transform; an
inner product stays below the bound of the inverse transform; and of two polynomials below the modulus there is a difference.
So strings of the right lengths are decrypted whatever they hold (`decryption_recovers_message`), and the message is read off
the ring: the polynomials behind the secret vector are those whose transforms are the decoded words modulo 3329.
-/

namespace ModuleLattice

open Finset

variable {k : Nat}

/-! ## What decoding delivers -/

/-- An encoding of the right length is decoded to small coefficients. -/
theorem NttVec.tryOfBytes_answers {bytes : Bytes} (h : bytes.length = k * 384) :
    ∃ x : NttVec k, NttVec.tryOfBytes k bytes = .ok x ∧ ∀ i : Fin k, AtMost 4095 (x.polys.get i).coeffs := by
  obtain ⟨x, hx, hfields⟩ := NttVec.tryOfBytes_fields h
  refine ⟨x, hx, fun i => atMost_iff.2 fun t => ?_⟩
  rw [hfields, Int.natAbs_natCast]
  exact Digits.field_lt 12 bytes _

/-- A message is the rounded coefficients, one bit each. -/
theorem Poly.toMessage_spec {p : Poly} (hp : p.coeffs.Canonical) :
    ∃ message, p.toMessage = .ok message ∧ message.length = 32 ∧
      ∀ t : Fin 256, (Digits.bitAt message t : Int) = (2 * (p.coeffs.get t).toInt + 1664) / 3329 % 2 := by
  obtain ⟨message, hlength, hok, hfields⟩ := compress_fields .one hp
  refine ⟨message, hok _ List.length_replicate, hlength, fun t => ?_⟩
  have hfield := hfields t
  rwa [Width.bits, Digits.field_one, pow_one, Int.mul_comm] at hfield

/-! ## The data flow -/

/-- What is left of the second part of a ciphertext when the inner product of the secret and the first part is taken away, with
canonical coefficients. -/
def noisyMessage (b : Backend) (s : NttVec k) (u : PolyVec k) (v : Poly) : Except Fault Poly := do
  let w ← (← s.innerProduct b (← u.ntt b)).nttInverse b
  (← v.sub w).reduce b

/-- The message of a ciphertext. -/
def recoverMessage (b : Backend) (s : NttVec k) (u : PolyVec k) (v : Poly) : Except Fault Bytes := do
  (← noisyMessage b s u v).toMessage

/-- On everything that decoding delivers the difference answers, and it is the difference in the ring. -/
theorem noisyMessage_spec (hk : k ≤ 4) {s : NttVec k} {u : PolyVec k} {v : Poly}
    (hs : ∀ i : Fin k, AtMost 4095 (s.polys.get i).coeffs) (hu : ∀ i : Fin k, AtMost 3328 (u.polys.get i).coeffs)
    (hv : AtMost 3328 v.coeffs) :
    ∃ p : Poly, (∀ b : Backend, noisyMessage b s u v = .ok p) ∧ p.coeffs.Canonical ∧
      ∀ t : Fin 256, (p.coeffs.get t).toInt = ((v.coeffs.get t).toInt -
        ∑ i : Fin k, negacyclic (integers (s.preimage.polys.get i).coeffs) (integers (u.polys.get i).coeffs) t) % 3329 := by
  obtain ⟨huok, hy, hyrep⟩ := PolyVec.transformed_spec hu
  let z : NttPoly := ⟨Lane.innerProduct (s.factorList u.transformed)⟩
  have hz : AtMost 16383 z.coeffs := fun t ht => (NttVec.factorList_spec hk hs hy ht).2.1
  have hproduct : ∀ t < 256, residues (Lane.inverse z.coeffs) t =
      ∑ i : Fin k, negacyclic (residues (s.preimage.polys.get i).coeffs) (residues (u.polys.get i).coeffs) t :=
    fun t ht => residues_inverse_of_remainders hz
      (fun j hj m hm => NttVec.remainders_of_represents hk hs hy s.represents_preimage hyrep hj hm) ht
  obtain ⟨x, hx⟩ := Coeffs.sub_answers hv (inverse_spec .reference hz).2.1 (by decide)
  refine ⟨⟨x.map Lane.canonical⟩, ?_, Coeffs.canonical_map_canonical x, ?_⟩
  · intro b
    have hsub : v.sub ⟨Lane.inverse z.coeffs⟩ = .ok ⟨x⟩ := by
      rw [Poly.sub, hx]
      rfl
    unfold noisyMessage
    rw [huok, ok_bind, NttVec.innerProduct_eq_lane b hk hs hy, ok_bind, NttPoly.nttInverse_eq_lane b hz, ok_bind, hsub, ok_bind,
      Poly.reduce_eq_lane]
  · intro t
    have hclass := Coeffs.residues_sub hx t.isLt
    rw [hproduct t t.isLt, residues, residues, entry_eq_get, entry_eq_get,
      ← congrFun (cast_sum_negacyclic (fun i => s.preimage.polys.get i) fun i => u.polys.get i) t, residue, residue,
      ← Int.cast_sub] at hclass
    rw [get_map]
    exact (canonical_spec (x.get t)).2.trans ((ZMod.intCast_eq_intCast_iff' _ _ _).1 hclass)

/-- Untrusted bytes are decrypted without a fault, and to the right message. For every rank up to four and all widths, three
strings of the right lengths and of any content are decoded, and every backend recovers the same message from what they are
decoded to. Its bits are the rounded coefficients of `v` minus the products of `u` with the polynomials behind the secret
vector, each of them determined by its transform modulo 3329. A string of another length is refused with its own length and the
one expected. -/
theorem decryption_recovers_message (hk : k ≤ 4) (du dv : Width) (s c₁ c₂ : Bytes) :
    (s.length = k * 384 → c₁.length = k * du.polynomialBytes → c₂.length = dv.polynomialBytes →
      ∃ (S : NttVec k) (u : PolyVec k) (v : Poly) (a : PolyVec k) (message : Bytes),
        NttVec.tryOfBytes k s = .ok S ∧ PolyVec.tryDecompress k du c₁ = .ok u ∧ Poly.tryDecompress dv c₂ = .ok v ∧
        (∀ a' : PolyVec k, (∀ i : Fin k, (a'.polys.get i).TransformsTo (S.polys.get i)) ↔ a' = a) ∧
        (∀ b : Backend, recoverMessage b S u v = .ok message) ∧ message.length = 32 ∧
        ∀ t : Fin 256,
          let x := ((v.coeffs.get t).toInt -
            ∑ i : Fin k, negacyclic (integers (a.polys.get i).coeffs) (integers (u.polys.get i).coeffs) t) % 3329
          (Digits.bitAt message t : Int) = (2 * x + 1664) / 3329 % 2) ∧
      (s.length ≠ k * 384 → NttVec.tryOfBytes k s = .error (.invalidLength (k * 384) s.length)) ∧
      (c₁.length ≠ k * du.polynomialBytes →
        PolyVec.tryDecompress k du c₁ = .error (.invalidLength (k * du.polynomialBytes) c₁.length)) ∧
      (c₂.length ≠ dv.polynomialBytes →
        Poly.tryDecompress dv c₂ = .error (.invalidLength dv.polynomialBytes c₂.length)) := by
  refine ⟨?_, fun h => if_neg h, fun h => if_neg h, fun h => if_neg h⟩
  intro hs h₁ h₂
  obtain ⟨S, hS, hSsize⟩ := NttVec.tryOfBytes_answers hs
  obtain ⟨u, hu, hucanonical⟩ := PolyVec.tryDecompress_answers du h₁
  obtain ⟨v, hv, hvcanonical⟩ := Poly.tryDecompress_answers dv h₂
  obtain ⟨p, hp, hpcanonical, hpvalue⟩ := noisyMessage_spec hk hSsize (fun i => (hucanonical i).atMost) hvcanonical.atMost
  obtain ⟨message, hmessage, hlength, hbits⟩ := Poly.toMessage_spec hpcanonical
  refine ⟨S, u, v, S.preimage, message, hS, hu, hv, fun a' => NttVec.transformsTo_iff, ?_, hlength, ?_⟩
  · intro b
    rw [recoverMessage, hp, ok_bind, hmessage]
  · intro t
    rw [hbits, hpvalue]

/-- Strings of ones, in which no twelve-bit field is a residue, are decrypted; and one that is empty is refused. -/
theorem decryption_of_ones :
    (List.replicate 1536 (255 : UInt8)).length = 4 * 384 ∧
      (List.replicate 1408 (255 : UInt8)).length = 4 * Width.eleven.polynomialBytes ∧
      (List.replicate 160 (255 : UInt8)).length = Width.five.polynomialBytes ∧
      (∃ (S : NttVec 4) (u : PolyVec 4) (v : Poly) (message : Bytes),
        NttVec.tryOfBytes 4 (List.replicate 1536 255) = .ok S ∧
        PolyVec.tryDecompress 4 .eleven (List.replicate 1408 255) = .ok u ∧
        Poly.tryDecompress .five (List.replicate 160 255) = .ok v ∧
        (∀ b : Backend, recoverMessage b S u v = .ok message) ∧ message.length = 32) ∧
      NttVec.tryOfBytes 4 [] = .error (.invalidLength 1536 0) := by
  have hs : (List.replicate 1536 (255 : UInt8)).length = 4 * 384 := List.length_replicate
  have h₁ : (List.replicate 1408 (255 : UInt8)).length = 4 * Width.eleven.polynomialBytes := List.length_replicate
  have h₂ : (List.replicate 160 (255 : UInt8)).length = Width.five.polynomialBytes := List.length_replicate
  obtain ⟨S, u, v, -, message, hS, hu, hv, -, hmessage, hlength, -⟩ :=
    (decryption_recovers_message (Nat.le_refl 4) .eleven .five (List.replicate 1536 255) (List.replicate 1408 255)
      (List.replicate 160 255)).1 hs h₁ h₂
  have hrefused := (decryption_recovers_message (Nat.le_refl 4) .eleven .five [] [] []).2.1 (by decide)
  exact ⟨hs, h₁, h₂, ⟨S, u, v, message, hS, hu, hv, hmessage, hlength⟩, hrefused⟩

end ModuleLattice
