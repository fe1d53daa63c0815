import ModuleLattice.Proofs.EntryConditions

/-!
# The layout of the compressed encodings

All widths have one layout: the bits of a compressed polynomial, the lowest bit of the first byte first, are the bits of its 256
values, `d` bits each and the lowest first. What is read back are the fields of `d` bits. The packings differ from width to width
only in how they bring this about, and the selection that reads a message delivers what the common formula gives for one bit
(`compressed_layout`). Vectors are their polynomials' encodings one after the other.
-/

namespace ModuleLattice

open Digits

variable {k : Nat}

namespace Poly

/-- The compressed form of canonical coefficients, field by field; it is the same over every buffer of its length. -/
theorem compress_fields (d : Width) {p : Poly} (hp : p.coeffs.Canonical) :
    ∃ bytes : Bytes, bytes.length = 32 * d.bits ∧
      (∀ buffer : Bytes, buffer.length = 32 * d.bits → p.compress d buffer = .ok bytes) ∧
      ∀ i : Fin 256, (field d.bits bytes i : Int) =
        ((p.coeffs.get i).toInt * 2 ^ d.bits + 1664) / 3329 % 2 ^ d.bits := by
  have hlength : (List.replicate (32 * d.bits) (0 : UInt8)).length = d.polynomialBytes := List.length_replicate
  obtain ⟨values, hok, hvalues⟩ := d.compress_spec hp hlength
  refine ⟨(Digits.pack d.bits values).toList, Vector.length_toList, ?_, ?_⟩
  · intro buffer hbuffer
    exact (d.compress_buffer p.coeffs (hbuffer.trans hlength.symm)).trans hok
  · intro i
    rw [field_pack (d.compressed_lt hvalues), Int.mul_comm, ← hvalues]

/-- The compressed form of canonical coefficients, bit by bit. -/
theorem compress_bits (d : Width) {p : Poly} (hp : p.coeffs.Canonical) :
    ∃ bytes : Bytes, bytes.length = 32 * d.bits ∧
      (∀ buffer : Bytes, buffer.length = 32 * d.bits → p.compress d buffer = .ok bytes) ∧
      ∀ (i : Fin 256) (j : Nat), j < d.bits → (bitAt bytes (d.bits * i + j) : Int) =
        ((p.coeffs.get i).toInt * 2 ^ d.bits + 1664) / 3329 % 2 ^ d.bits / 2 ^ j % 2 := by
  obtain ⟨bytes, hlength, hok, hfields⟩ := compress_fields d hp
  refine ⟨bytes, hlength, hok, fun i j hj => ?_⟩
  rw [bitAt_field _ _ hj, ← hfields]
  norm_cast

/-- What a compressed form of the right length stands for, field by field. -/
theorem decompress_fields (d : Width) {bytes : Bytes} (h : bytes.length = 32 * d.bits) :
    ∃ p : Poly, decompress d bytes = .ok p ∧ p.coeffs.Canonical ∧
      ∀ i : Fin 256, (p.coeffs.get i).toInt = ((field d.bits bytes i * 3329 + 2 ^ (d.bits - 1)) / 2 ^ d.bits : Nat) := by
  obtain ⟨x, hx, hvalues⟩ := d.decompress_spec h
  refine ⟨⟨x⟩, by rw [decompress, hx]; rfl, Width.canonical_of_decompress hx, ?_⟩
  intro i
  rw [hvalues i, field_eq_digit]

/-- A string of the right length is decompressed, to canonical coefficients. -/
theorem tryDecompress_answers (d : Width) {bytes : Bytes} (h : bytes.length = d.polynomialBytes) :
    ∃ p : Poly, tryDecompress d bytes = .ok p ∧ p.coeffs.Canonical := by
  obtain ⟨p, hp, hcanonical, -⟩ := decompress_fields d h
  exact ⟨p, (if_pos h).trans hp, hcanonical⟩

end Poly

namespace PolyVec

/-- The compressed form of a vector is those of its polynomials, one after the other. -/
theorem compress_eq_flatten (d : Width) {v : PolyVec k} (hv : ∀ r : Fin k, (v.polys.get r).coeffs.Canonical) :
    ∃ parts : Vector Bytes k,
      (∀ (r : Fin k) (buffer : Bytes), buffer.length = 32 * d.bits → (v.polys.get r).compress d buffer = .ok (parts.get r)) ∧
      ∀ buffer : Bytes, buffer.length = k * (32 * d.bits) → v.compress d buffer = .ok parts.toList.flatten := by
  choose encoding hlength hok hbits using fun r : Fin k => Poly.compress_bits d (hv r)
  refine ⟨Vector.ofFn encoding, ?_, ?_⟩
  · intro r buffer hbuffer
    rw [get_ofFn]
    exact hok r buffer hbuffer
  · intro buffer hbuffer
    have hparts : (Vector.ofFnM fun r : Fin k => (v.polys.get r).compress d (part buffer d.polynomialBytes r)) =
        .ok (Vector.ofFn encoding) := by
      refine ofFnM_eq_ok_iff.2 fun r => ?_
      rw [get_ofFn]
      exact hok r _ (length_part hbuffer r)
    unfold compress
    rw [ensure, if_pos (show buffer.length = compressedBytes k d from hbuffer), ok_bind, hparts, ok_bind]
    rfl

/-- A vector is decompressed part by part. -/
theorem decompress_parts (d : Width) {bytes : Bytes} (h : bytes.length = k * (32 * d.bits)) :
    ∃ v : PolyVec k, decompress k d bytes = .ok v ∧
      ∀ r : Fin k, Poly.decompress d (part bytes (32 * d.bits) r) = .ok (v.polys.get r) := by
  choose p hp hcanonical hvalues using fun r : Fin k => Poly.decompress_fields d (length_part h r)
  have hparts : (Vector.ofFnM fun r : Fin k => Poly.decompress d (part bytes d.polynomialBytes r)) = .ok (Vector.ofFn p) := by
    refine ofFnM_eq_ok_iff.2 fun r => ?_
    rw [get_ofFn]
    exact hp r
  refine ⟨⟨Vector.ofFn p⟩, ?_, ?_⟩
  · unfold decompress
    rw [ensure, if_pos (show bytes.length = compressedBytes k d from h), ok_bind, hparts]
    rfl
  · intro r
    rw [get_ofFn]
    exact hp r

/-- A string of the right length is decompressed, to canonical coefficients. -/
theorem tryDecompress_answers (d : Width) {bytes : Bytes} (h : bytes.length = k * d.polynomialBytes) :
    ∃ v : PolyVec k, tryDecompress k d bytes = .ok v ∧ ∀ r : Fin k, (v.polys.get r).coeffs.Canonical := by
  obtain ⟨v, hv, hparts⟩ := decompress_parts d h
  refine ⟨v, (if_pos h).trans hv, fun r => ?_⟩
  obtain ⟨p, hp, hcanonical, -⟩ := Poly.decompress_fields d (length_part h r)
  exact Except.ok.inj (hp.symm.trans (hparts r)) ▸ hcanonical

end PolyVec

/-- The compressed encodings have one layout at all five widths. Canonical coefficients are compressed, over any buffer of `32 * d`
bytes and with no trace of what it held, to the bytes whose bit `d * i + j` is bit `j` of coefficient `i` times `2 ^ d`, divided
by the modulus, rounded and cut to `d` bits. Any `32 * d` bytes are decompressed, to canonical coefficients: field `i` of `d` bits
times the modulus, divided by `2 ^ d` and rounded. A vector of any rank is compressed to the encodings of its polynomials in order,
over any buffer of their lengths together, and it is decompressed part by part. -/
theorem compressed_layout (d : Width) :
    (∀ p : Poly, p.coeffs.Canonical → ∃ bytes : Bytes, bytes.length = 32 * d.bits ∧
        (∀ buffer : Bytes, buffer.length = 32 * d.bits → p.compress d buffer = .ok bytes) ∧
        ∀ (i : Fin 256) (j : Nat), j < d.bits → (bitAt bytes (d.bits * i + j) : Int) =
          ((p.coeffs.get i).toInt * 2 ^ d.bits + 1664) / 3329 % 2 ^ d.bits / 2 ^ j % 2) ∧
      (∀ bytes : Bytes, bytes.length = 32 * d.bits → ∃ p : Poly, Poly.decompress d bytes = .ok p ∧ p.coeffs.Canonical ∧
        ∀ i : Fin 256, (p.coeffs.get i).toInt = ((field d.bits bytes i * 3329 + 2 ^ (d.bits - 1)) / 2 ^ d.bits : Nat)) ∧
      ∀ k : Nat,
        (∀ v : PolyVec k, (∀ r : Fin k, (v.polys.get r).coeffs.Canonical) → ∃ parts : Vector Bytes k,
          (∀ (r : Fin k) (buffer : Bytes), buffer.length = 32 * d.bits → (v.polys.get r).compress d buffer = .ok (parts.get r)) ∧
          ∀ buffer : Bytes, buffer.length = k * (32 * d.bits) → v.compress d buffer = .ok parts.toList.flatten) ∧
        ∀ bytes : Bytes, bytes.length = k * (32 * d.bits) → ∃ v : PolyVec k, PolyVec.decompress k d bytes = .ok v ∧
          ∀ r : Fin k, Poly.decompress d (part bytes (32 * d.bits) r) = .ok (v.polys.get r) :=
  ⟨fun _ hp => Poly.compress_bits d hp, fun _ h => Poly.decompress_fields d h,
    fun _ => ⟨fun _ hv => PolyVec.compress_eq_flatten d hv, fun _ h => PolyVec.decompress_parts d h⟩⟩

/-- The polynomial with the coefficients `0, 13, 26, ...`. -/
def Poly.ramp : Poly := ⟨Vector.ofFn fun i => Int16.ofNat (13 * i.val)⟩

theorem Poly.toInt_ramp (i : Fin 256) : (ramp.coeffs.get i).toInt = 13 * i.val := by
  rw [ramp, get_ofFn, Int16.toInt_ofNat_of_lt (by omega)]
  rfl

theorem Poly.canonical_ramp : ramp.coeffs.Canonical := by
  intro i
  rw [toInt_ramp]
  omega

/-- In five bits coefficient 7 of the ramp, which is 91, is rounded to 1: of the five bits from bit 35 on the first is one and the
next is zero. The greatest field of four bits stands for 3121. Two ramps in a vector are compressed to the encodings of both. -/
theorem ramp_compressed :
    Poly.ramp.coeffs.Canonical ∧
      (∃ bytes, Poly.ramp.compress .five (List.replicate 160 7) = .ok bytes ∧ bytes.length = 160 ∧ bitAt bytes 35 = 1 ∧
        bitAt bytes 36 = 0) ∧
      (∃ p, Poly.decompress .four (List.replicate 128 0xFF) = .ok p ∧ ∀ i : Fin 256, (p.coeffs.get i).toInt = 3121) ∧
      ∃ parts : Vector Bytes 2, PolyVec.compress .five (⟨Vector.replicate 2 Poly.ramp⟩ : PolyVec 2) (List.replicate 320 7) =
        .ok parts.toList.flatten := by
  obtain ⟨hcompress, -, hvector⟩ := compressed_layout .five
  obtain ⟨-, hdecompress, -⟩ := compressed_layout .four
  refine ⟨Poly.canonical_ramp, ?_, ?_, ?_⟩
  · obtain ⟨bytes, hlength, hok, hbits⟩ := hcompress Poly.ramp Poly.canonical_ramp
    have hfirst := hbits ⟨7, by decide⟩ 0 (by decide)
    have hsecond := hbits ⟨7, by decide⟩ 1 (by decide)
    have hvalue : (Poly.ramp.coeffs.get ⟨7, by decide⟩).toInt = 91 := by rw [Poly.toInt_ramp]; rfl
    rw [hvalue] at hfirst hsecond
    exact ⟨bytes, hok _ List.length_replicate, hlength, Int.ofNat.inj hfirst, Int.ofNat.inj hsecond⟩
  · obtain ⟨p, hok, -, hvalues⟩ := hdecompress (List.replicate 128 0xFF) List.length_replicate
    have hfields : ∀ i : Fin 256, field 4 (List.replicate 128 0xFF) i = 15 := by decide +kernel
    refine ⟨p, hok, fun i => ?_⟩
    rw [hvalues i, Width.bits, hfields i]
    rfl
  · obtain ⟨parts, -, hok⟩ := (hvector 2).1 ⟨Vector.replicate 2 Poly.ramp⟩ fun r => by
      rw [get_eq_getElem, Vector.getElem_replicate]
      exact Poly.canonical_ramp
    exact ⟨parts, hok _ List.length_replicate⟩

end ModuleLattice
