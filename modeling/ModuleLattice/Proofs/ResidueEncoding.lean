import ModuleLattice.Proofs.ModulusCheck

/-!
# The uncompressed encoding as a canonical form

Signed residues have an encoding, and it depends on their residue classes only: the fields of twelve bits hold the remainders by
the modulus, so congruent polynomials have one encoding and others do not, and decoding gives the unsigned residues.
`CanonicalForm` says this of an encoding whose fields belong to a family of coefficients, and it follows for polynomials and for
vectors alike from what the fields hold. The encoding of a vector is those of its polynomials in order (`residue_encoding`).
-/

namespace ModuleLattice

open Digits

variable {k : Nat}

/-- An encoding of signed residues that is a canonical form of their classes. `coefficient` lists the coefficients of a value,
`place` says which field of twelve bits belongs to each, and `view` shows an encoding as a byte string. -/
structure CanonicalForm {α β ι : Type} (coefficient : α → ι → Int) (place : ι → Nat) (view : β → Bytes)
    (encode : α → Except Fault β) (decode : β → Except Fault α) : Prop where
  encoded (x : α) : (∀ i, (coefficient x i).natAbs < 3329) → ∃ (bytes : β) (y : α), encode x = .ok bytes ∧
    (∀ (i : ι) (j : Nat), j < 12 → (bitAt (view bytes) (12 * place i + j) : Int) = coefficient x i % 3329 / 2 ^ j % 2) ∧
    decode bytes = .ok y ∧
    ∀ i, coefficient y i = if coefficient x i < 0 then coefficient x i + 3329 else coefficient x i
  same_iff (x y : α) : (∀ i, (coefficient x i).natAbs < 3329) → (∀ i, (coefficient y i).natAbs < 3329) →
    (encode x = encode y ↔ ∀ i, Int.ModEq 3329 (coefficient x i) (coefficient y i))

/-- An encoding is a canonical form if it gives a string exactly if the fields of the string are the remainders, and decoding reads
the fields. -/
theorem CanonicalForm.of_fields {α β ι : Type} {coefficient : α → ι → Int} {place : ι → Nat} {view : β → Bytes}
    {encode : α → Except Fault β} {decode : β → Except Fault α}
    (hencode : ∀ x, (∀ i, (coefficient x i).natAbs < 3329) → ∃ bytes, encode x = .ok bytes ∧
      (∀ y, (∀ i, (coefficient y i).natAbs < 3329) →
        (encode y = .ok bytes ↔ ∀ i, (field 12 (view bytes) (place i) : Int) = coefficient y i % 3329)) ∧
      ∃ y, decode bytes = .ok y ∧ ∀ i, coefficient y i = field 12 (view bytes) (place i)) :
    CanonicalForm coefficient place view encode decode where
  encoded x hx := by
    obtain ⟨bytes, hok, hencodes, y, hdecode, hvalues⟩ := hencode x hx
    have hfields := (hencodes x hx).1 hok
    refine ⟨bytes, y, hok, ?_, hdecode, ?_⟩
    · intro i j hj
      rw [bitAt_field _ _ hj, ← hfields]
      norm_cast
    · intro i
      have hi := hx i
      rw [hvalues, hfields]
      split <;> omega
  same_iff x y hx hy := by
    obtain ⟨bytes, hok, hencodes, -⟩ := hencode x hx
    have hfields := (hencodes x hx).1 hok
    rw [hok, eq_comm, hencodes y hy]
    refine forall_congr' fun i => ?_
    rw [hfields]
    rfl

/-! ## Polynomials and vectors -/

theorem NttPoly.toBytes_answers {p : NttPoly} (hp : Contract.encodeInput.Holds p.coeffs) : ∃ bytes, p.toBytes = .ok bytes :=
  (TwelveBit.stops_encode p.coeffs).answers_iff.2 (List.forall_mem_singleton.2 fun ⟨t, ht⟩ => absurd (hp t) (not_lt.2 ht))

theorem NttPoly.canonicalForm :
    CanonicalForm (fun (p : NttPoly) (t : Fin 256) => (p.coeffs.get t).toInt) Fin.val Vector.toList toBytes ofBytes := by
  refine .of_fields fun p hp => ?_
  obtain ⟨bytes, hok⟩ := toBytes_answers hp
  exact ⟨bytes, hok, fun y hy => TwelveBit.encode_eq_ok_iff hy, ofBytes_fields bytes⟩

namespace NttVec

/-- The encoding of a vector is those of its polynomials, one after the other, whatever the buffer held. -/
theorem toBytes_eq_flatten {v : NttVec k} (hv : ∀ r : Fin k, Contract.encodeInput.Holds (v.polys.get r).coeffs) :
    ∃ parts : Vector (Vector UInt8 384) k, (∀ r : Fin k, (v.polys.get r).toBytes = .ok (parts.get r)) ∧
      ∀ buffer : Bytes, buffer.length = k * 384 → v.toBytes buffer = .ok parts.flatten.toList := by
  obtain ⟨parts, hloop, hparts⟩ := ofFnM_answers fun r : Fin k => (NttPoly.toBytes_answers (hv r)).imp fun _ h => ⟨h, h⟩
  refine ⟨parts, hparts, fun buffer hbuffer => ?_⟩
  unfold toBytes
  rw [ensure, if_pos (show buffer.length = encodedBytes k from hbuffer), ok_bind, hloop, ok_bind]
  rfl

theorem canonicalForm {buffer : Bytes} (hbuffer : buffer.length = k * 384) :
    CanonicalForm (fun (v : NttVec k) (i : Fin k × Fin 256) => ((v.polys.get i.1).coeffs.get i.2).toInt)
      (fun i => 256 * i.1 + i.2) id (fun v => v.toBytes buffer) (ofBytes k) := by
  refine .of_fields fun v hv => ?_
  obtain ⟨parts, -, hok⟩ := toBytes_eq_flatten fun r t => hv (r, t)
  have hlength : parts.flatten.toList.length = k * 384 := Vector.length_toList
  refine ⟨parts.flatten.toList, hok buffer hbuffer, ?_, ?_⟩
  · intro w hw
    rw [toBytes_eq_ok_iff (fun r t => hw (r, t)) hlength hbuffer, Prod.forall]
    rfl
  · obtain ⟨w, hdecode, hfields⟩ := tryOfBytes_fields hlength
    rw [tryOfBytes, if_pos (show _ = encodedBytes k from hlength)] at hdecode
    exact ⟨w, hdecode, fun i => hfields i.1 i.2⟩

end NttVec

/-- The uncompressed encoding is a canonical form of residue classes. Polynomials with coefficients below the modulus in magnitude
are encoded in 384 bytes: field by field of twelve bits the remainders of the coefficients, bit `j` of coefficient `t` at
`12 * t + j`. Decoding gives the polynomial back with the modulus added to its negative coefficients, and two polynomials have the
same encoding exactly if they are congruent in every coefficient. A vector of any rank is encoded, over every buffer of the right
length, to the encodings of its polynomials one after the other, and the same laws hold for it. -/
theorem residue_encoding :
    CanonicalForm (fun (p : NttPoly) (t : Fin 256) => (p.coeffs.get t).toInt) (fun t => t.val) Vector.toList NttPoly.toBytes
        NttPoly.ofBytes ∧
      ∀ k : Nat,
        (∀ v : NttVec k, (∀ (r : Fin k) (t : Fin 256), ((v.polys.get r).coeffs.get t).toInt.natAbs < 3329) →
          ∃ parts : Vector (Vector UInt8 384) k, (∀ r : Fin k, (v.polys.get r).toBytes = .ok (parts.get r)) ∧
            ∀ buffer : Bytes, buffer.length = k * 384 → v.toBytes buffer = .ok parts.flatten.toList) ∧
        ∀ buffer : Bytes, buffer.length = k * 384 →
          CanonicalForm (fun (v : NttVec k) (i : Fin k × Fin 256) => ((v.polys.get i.1).coeffs.get i.2).toInt)
            (fun i => 256 * i.1.val + i.2.val) (fun bytes => bytes) (fun v => v.toBytes buffer) (NttVec.ofBytes k) :=
  ⟨NttPoly.canonicalForm, fun _ => ⟨fun _ hv => NttVec.toBytes_eq_flatten hv, fun _ => NttVec.canonicalForm⟩⟩

/-- The least representatives of the classes that the extreme coefficients are in. -/
def NttPoly.signs : NttPoly := ⟨Vector.ofFn fun i => if i.val % 2 = 0 then -1 else 1⟩

theorem NttPoly.toInt_signs (t : Fin 256) : (signs.coeffs.get t).toInt = if t.val % 2 = 0 then -1 else 1 := by
  rw [signs, get_ofFn]
  split <;> rfl

theorem Poly.toInt_extreme (t : Fin 256) : (extreme.coeffs.get t).toInt = if t.val % 2 = 0 then 3328 else -3328 := by
  rw [extreme, get_ofFn]
  split <;> rfl

/-- Extreme coefficients and the least representatives of their classes have one encoding, as polynomials and twice in a vector; it
is decoded to 3328 and 1 in turns. -/
theorem residue_encoding_extreme :
    (∀ t : Fin 256, (Poly.extreme.coeffs.get t).toInt.natAbs < 3329) ∧
      (∀ t : Fin 256, (NttPoly.signs.coeffs.get t).toInt.natAbs < 3329) ∧
      NttPoly.toBytes ⟨Poly.extreme.coeffs⟩ = NttPoly.signs.toBytes ∧
      (∃ bytes y, NttPoly.signs.toBytes = .ok bytes ∧ NttPoly.ofBytes bytes = .ok y ∧
        ∀ t : Fin 256, (y.coeffs.get t).toInt = if t.val % 2 = 0 then 3328 else 1) ∧
      NttVec.toBytes (⟨Vector.replicate 2 ⟨Poly.extreme.coeffs⟩⟩ : NttVec 2) (List.replicate 768 7) =
        NttVec.toBytes (⟨Vector.replicate 2 NttPoly.signs⟩ : NttVec 2) (List.replicate 768 7) := by
  have hsigns : ∀ t : Fin 256, (NttPoly.signs.coeffs.get t).toInt.natAbs < 3329 := by
    intro t
    rw [NttPoly.toInt_signs]
    split <;> decide
  have hcongruent : ∀ t : Fin 256, Int.ModEq 3329 (Poly.extreme.coeffs.get t).toInt (NttPoly.signs.coeffs.get t).toInt := by
    intro t
    rw [Poly.toInt_extreme, NttPoly.toInt_signs]
    split <;> rfl
  obtain ⟨hpoly, hvector⟩ := residue_encoding
  refine ⟨Poly.extreme_accepted, hsigns, (hpoly.same_iff ⟨_⟩ _ Poly.extreme_accepted hsigns).2 hcongruent, ?_, ?_⟩
  · obtain ⟨bytes, y, hok, -, hback, hvalues⟩ := hpoly.encoded _ hsigns
    refine ⟨bytes, y, hok, hback, fun t => ?_⟩
    refine (hvalues t).trans ?_
    rw [NttPoly.toInt_signs]
    split <;> rfl
  · refine (((hvector 2).2 _ List.length_replicate).same_iff _ _ ?_ ?_).2 ?_
    · rintro ⟨r, t⟩
      rw [get_replicate]
      exact Poly.extreme_accepted t
    · rintro ⟨r, t⟩
      rw [get_replicate]
      exact hsigns t
    · rintro ⟨r, t⟩
      rw [get_replicate, get_replicate]
      exact hcongruent t

end ModuleLattice
