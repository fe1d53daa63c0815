import ModuleLattice.Proofs.CompressedLayout

/-!
# Compressed bytes are a faithful encoding

Compression loses what the rounding takes away, but nothing is lost in the other direction: every string of the right length is
the compressed form of what it is decompressed to. For one value this is `Width.rounded_back`, that two rounded divisions in a row
undo each other; for a polynomial the packed values are the fields of the string they were read from; and the parts of a string
make it up again. So strings that are decompressed to the same polynomials are the same, and every string is a compressed form
(`compression_faithful`).
-/

namespace ModuleLattice

open Digits

variable {k : Nat}

/-- The parts of a byte string that is as long as all of them make it up. -/
theorem flatten_parts {bytes : Bytes} {size : Nat} (h : bytes.length = k * size) :
    (Vector.ofFn fun i : Fin k => part bytes size i).toList.flatten = bytes := by
  -- The first `n` parts are the first `n * size` bytes.
  have hparts : ∀ n : Nat, (List.ofFn fun i : Fin n => part bytes size i).flatten = bytes.take (n * size) := by
    intro n
    induction n with
    | zero => simp
    | succ n ih =>
      rw [List.ofFn_succ_last, List.flatten_append, List.flatten_singleton, Nat.succ_mul, List.take_add]
      exact congrArg (· ++ part bytes size n) ih
  rw [Vector.toList_ofFn, hparts, ← h, List.take_length]

/-- What a string of the right length is decompressed to is compressed to the string. -/
theorem Width.compress_of_decompress {d : Width} {bytes buffer : Bytes} {x : Coeffs 256} (h : d.decompress bytes = .ok x)
    (hbuffer : buffer.length = d.polynomialBytes) : d.compress x buffer = .ok bytes := by
  have hlength : bytes.length = 32 * d.bits := (ensure_bind_eq_ok_iff.1 h).1
  obtain ⟨x', hx', hcoefficients⟩ := d.decompress_spec hlength
  obtain rfl : x' = x := Except.ok.inj (hx'.symm.trans h)
  obtain ⟨values, hok, hvalues⟩ := d.compress_spec (canonical_of_decompress h) hbuffer
  rw [hok]
  refine congrArg Except.ok ((pack_eq_iff (d.compressed_lt hvalues) hlength).2 fun i => ?_)
  have hvalue := hvalues i
  rw [hcoefficients] at hvalue
  rw [field_eq_digit, ← d.rounded_back (digit_lt d.bits _ i)]
  exact_mod_cast hvalue.symm

namespace Poly

/-- What a string is decompressed to is compressed to the string, over every buffer of its length. -/
theorem compress_of_tryDecompress {d : Width} {bytes buffer : Bytes} {p : Poly} (h : tryDecompress d bytes = .ok p)
    (hbuffer : buffer.length = d.polynomialBytes) : p.compress d buffer = .ok bytes := by
  unfold tryDecompress at h
  split at h
  · obtain ⟨x, hx, h⟩ := bind_eq_ok_iff.1 h
    exact Except.ok.inj h ▸ Width.compress_of_decompress hx hbuffer
  · cases h

/-- Strings that are decompressed to one polynomial are the same. -/
theorem tryDecompress_injective {d : Width} {bytes bytes' : Bytes} {p : Poly} (h : tryDecompress d bytes = .ok p)
    (h' : tryDecompress d bytes' = .ok p) : bytes = bytes' := by
  have hbuffer : (List.replicate d.polynomialBytes (0 : UInt8)).length = d.polynomialBytes := List.length_replicate
  exact Except.ok.inj ((compress_of_tryDecompress h hbuffer).symm.trans (compress_of_tryDecompress h' hbuffer))

/-- A message is the message of its polynomial. -/
theorem toMessage_ofMessage (message : Vector UInt8 32) : ∃ p, ofMessage message = .ok p ∧ p.toMessage = .ok message.toList := by
  have hlength : message.toList.length = Width.one.polynomialBytes := message.length_toList
  obtain ⟨p, hp, -⟩ := tryDecompress_answers .one hlength
  refine ⟨p, ?_, compress_of_tryDecompress hp List.length_replicate⟩
  rwa [tryDecompress, if_pos hlength] at hp

end Poly

namespace PolyVec

/-- What a string is decompressed to is compressed to the string, part by part and over every buffer of its length. -/
theorem compress_of_tryDecompress {d : Width} {bytes buffer : Bytes} {v : PolyVec k} (h : tryDecompress k d bytes = .ok v)
    (hbuffer : buffer.length = compressedBytes k d) : v.compress d buffer = .ok bytes := by
  unfold tryDecompress at h
  split at h
  · rename_i hlength
    obtain ⟨-, h⟩ := ensure_bind_eq_ok_iff.1 h
    obtain ⟨polys, hpolys, h⟩ := bind_eq_ok_iff.1 h
    obtain rfl := Except.ok.inj h
    have hparts : (Vector.ofFnM fun i : Fin k => (polys.get i).compress d (part buffer d.polynomialBytes i)) =
        .ok (Vector.ofFn fun i : Fin k => part bytes d.polynomialBytes i) := by
      refine ofFnM_eq_ok_iff.2 fun i => ?_
      obtain ⟨x, hx, hi⟩ := bind_eq_ok_iff.1 (ofFnM_eq_ok_iff.1 hpolys i)
      rw [get_ofFn, ← Except.ok.inj hi]
      exact Width.compress_of_decompress hx (length_part hbuffer i)
    unfold compress
    rw [ensure, if_pos hbuffer, ok_bind, hparts, ok_bind]
    exact congrArg Except.ok (flatten_parts hlength)
  · cases h

/-- Strings that are decompressed to one vector are the same. -/
theorem tryDecompress_injective {d : Width} {bytes bytes' : Bytes} {v : PolyVec k} (h : tryDecompress k d bytes = .ok v)
    (h' : tryDecompress k d bytes' = .ok v) : bytes = bytes' := by
  have hbuffer : (List.replicate (compressedBytes k d) (0 : UInt8)).length = compressedBytes k d := List.length_replicate
  exact Except.ok.inj ((compress_of_tryDecompress h hbuffer).symm.trans (compress_of_tryDecompress h' hbuffer))

end PolyVec

/-- Compressed bytes are a faithful encoding. At every width and for every rank, any string of the length of a compressed polynomial
or vector is decompressed, and compressing the result gives back that string, over every buffer of its length. So every string
is a compressed form, and strings that are decompressed to the same result are the same. A message is the message of its
polynomial. -/
theorem compression_faithful (d : Width) :
    (∀ bytes : Bytes, bytes.length = d.polynomialBytes →
        ∃ p : Poly, Poly.tryDecompress d bytes = .ok p ∧
          ∀ buffer : Bytes, buffer.length = d.polynomialBytes → p.compress d buffer = .ok bytes) ∧
      (∀ (p : Poly) (bytes bytes' : Bytes), Poly.tryDecompress d bytes = .ok p → Poly.tryDecompress d bytes' = .ok p →
        bytes = bytes') ∧
      (∀ (k : Nat) (bytes : Bytes), bytes.length = k * d.polynomialBytes →
        ∃ v : PolyVec k, PolyVec.tryDecompress k d bytes = .ok v ∧
          ∀ buffer : Bytes, buffer.length = k * d.polynomialBytes → v.compress d buffer = .ok bytes) ∧
      (∀ (k : Nat) (v : PolyVec k) (bytes bytes' : Bytes), PolyVec.tryDecompress k d bytes = .ok v →
        PolyVec.tryDecompress k d bytes' = .ok v → bytes = bytes') ∧
      ∀ message : Vector UInt8 32, ∃ p : Poly, Poly.ofMessage message = .ok p ∧ p.toMessage = .ok message.toList := by
  refine ⟨?_, fun _ _ _ => Poly.tryDecompress_injective, ?_, fun _ _ _ _ => PolyVec.tryDecompress_injective,
    Poly.toMessage_ofMessage⟩
  · intro bytes h
    obtain ⟨p, hp, -⟩ := Poly.tryDecompress_answers d h
    exact ⟨p, hp, fun _ => Poly.compress_of_tryDecompress hp⟩
  · intro k bytes h
    obtain ⟨v, hv, -⟩ := PolyVec.tryDecompress_answers d h
    exact ⟨v, hv, fun _ => PolyVec.compress_of_tryDecompress hv⟩

/-- In eleven bits a string of one repeated byte comes back, written over a buffer of ones; strings that differ in a single bit
stand for different vectors. -/
theorem compression_faithful_eleven :
    (List.replicate 352 (0xA5 : UInt8)).length = Width.eleven.polynomialBytes ∧
      (∃ p : Poly, Poly.tryDecompress .eleven (List.replicate 352 0xA5) = .ok p ∧
        p.compress .eleven (List.replicate 352 0xFF) = .ok (List.replicate 352 0xA5)) ∧
      ∃ v w : PolyVec 2, PolyVec.tryDecompress 2 .eleven (0 :: List.replicate 703 0xA5) = .ok v ∧
        PolyVec.tryDecompress 2 .eleven (1 :: List.replicate 703 0xA5) = .ok w ∧ v ≠ w := by
  obtain ⟨hpoly, -, hvector, hinjective, -⟩ := compression_faithful .eleven
  obtain ⟨p, hp, hback⟩ := hpoly (List.replicate 352 0xA5) List.length_replicate
  obtain ⟨v, hv, -⟩ := hvector 2 (0 :: List.replicate 703 0xA5) (by rw [List.length_cons, List.length_replicate]; rfl)
  obtain ⟨w, hw, -⟩ := hvector 2 (1 :: List.replicate 703 0xA5) (by rw [List.length_cons, List.length_replicate]; rfl)
  refine ⟨List.length_replicate, ⟨p, hp, hback _ List.length_replicate⟩, v, w, hv, hw, ?_⟩
  rintro rfl
  exact absurd (List.cons.inj (hinjective 2 v _ _ hv hw)).1 (by decide)

end ModuleLattice
