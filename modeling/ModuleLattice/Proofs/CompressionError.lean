import ModuleLattice.Proofs.CompressedLayout

/-!
# What compression loses

A compressed coefficient is a rounded quotient, and so is what comes back of it. Each of the two roundings misses by at most half a
step of the scale it comes from, and what the compressed value loses where it wraps are whole turns of the circle of residues;
so around the circle a coefficient comes back at most `(3329 + 2 ^ d) / 2 ^ (d + 1)` away
(`Width.circularDistance_recovered_le`), which is the least bound at every width. The packing keeps every value at its place: what
comes back of a coefficient depends on that coefficient alone (`compression_error`).
-/

namespace ModuleLattice

open Digits

variable {k : Nat}

/-! ## Rounded quotients around the circle -/

/-- The distance of two coefficients around the circle of residues modulo 3329. -/
def circularDistance (x y : Int) : Nat := min ((x - y) % 3329).toNat ((y - x) % 3329).toNat

/-- Around the circle two coefficients are no further apart than any of their representatives. -/
theorem circularDistance_le (x y turns : Int) : circularDistance x y ≤ (x - y + 3329 * turns).natAbs := by
  have hback : (y - x) % 3329 ≤ 3329 - (x - y) % 3329 := by omega
  rw [circularDistance]
  rcases le_or_gt 0 ((x - y) / 3329 + turns) with hturns | hturns
  · exact (min_le_left _ _).trans (by omega)
  · exact (min_le_right _ _).trans (by omega)

/-- A quotient rounded to the nearest integer, times its divisor, misses the dividend by at most half the divisor. -/
theorem rounded_quotient_near {m : Nat} (hm : 0 < m) (n : Int) : 2 * (m * ((n + m / 2) / m) - n).natAbs ≤ m := by
  have hdiv := Int.mul_ediv_add_emod (n + m / 2) m
  have hlo := Int.emod_nonneg (n + m / 2) (Int.natCast_pos.2 hm).ne'
  have hhi := Int.emod_lt_of_pos (n + m / 2) (Int.natCast_pos.2 hm)
  omega

/-- A coefficient `c` on a scale of 3329 steps is moved to a scale of `top` steps and back. If each move misses by at most half a
step of the scale it comes from, and the value between them has lost whole turns, then the two misses add up around the circle. -/
theorem circularDistance_rescaled_le {top : Nat} {c scaled value back turns : Int}
    (hscaled : 2 * (3329 * scaled - c * top).natAbs ≤ 3329) (hvalue : top * turns + value = scaled)
    (hback : 2 * (top * back - value * 3329).natAbs ≤ top) : circularDistance back c * (top * 2) ≤ 3329 + top := by
  have hsum : top * (back - c + 3329 * turns) = 3329 * scaled - c * top + (top * back - value * 3329) := by
    linear_combination 3329 * hvalue
  have hsize := congrArg Int.natAbs hsum
  rw [Int.natAbs_mul, Int.natAbs_natCast] at hsize
  calc circularDistance back c * (top * 2)
      ≤ (back - c + 3329 * turns).natAbs * (top * 2) := Nat.mul_le_mul_right _ (circularDistance_le back c turns)
    _ = 2 * (top * (back - c + 3329 * turns).natAbs) := by ring
    _ ≤ 3329 + top := by omega

namespace Width

/-- What comes back of a coefficient that is compressed to the width and decompressed again. -/
def recovered (d : Width) (c : Int) : Int :=
  ((c * 2 ^ d.bits + 1664) / 3329 % 2 ^ d.bits * 3329 + 2 ^ (d.bits - 1)) / 2 ^ d.bits

/-- How far a coefficient may be from what comes back of it. -/
def errorBound (d : Width) : Nat := (3329 + 2 ^ d.bits) >>> (d.bits + 1)

/-- A coefficient comes back with at most half a step of either scale as error. Where its compressed value wraps to zero, it comes
back one turn of the circle further on. -/
theorem circularDistance_recovered_le (d : Width) (c : Int) : circularDistance (d.recovered c) c ≤ d.errorBound := by
  have htop : (2 : Int) ^ d.bits = (2 ^ d.bits : Nat) := by norm_cast
  have hhalf : (2 : Int) ^ (d.bits - 1) = (2 ^ d.bits : Nat) / 2 := by cases d <;> rfl
  rw [errorBound, Nat.shiftRight_eq_div_pow, pow_succ, Nat.le_div_iff_mul_le (by positivity), recovered, hhalf, htop]
  exact circularDistance_rescaled_le (@rounded_quotient_near 3329 (by decide) _) (Int.mul_ediv_add_emod _ _)
    (rounded_quotient_near (Nat.two_pow_pos d.bits) _)

/-- The bound is reached at every width. -/
theorem errorBound_reached (d : Width) :
    ∃ c : Int, 0 ≤ c ∧ c < 3329 ∧ circularDistance (d.recovered c) c = d.errorBound := by
  cases d with
  | one => exact ⟨832, by decide⟩
  | four => exact ⟨104, by decide⟩
  | five => exact ⟨52, by decide⟩
  | ten => exact ⟨5, by decide⟩
  | eleven => exact ⟨1, by decide⟩

end Width

/-! ## Polynomials and vectors -/

/-- Canonical coefficients are compressed and decompressed each for itself. -/
theorem Poly.decompress_compress (d : Width) {p : Poly} (hp : p.coeffs.Canonical) :
    ∃ (bytes : Bytes) (q : Poly), bytes.length = d.polynomialBytes ∧
      (∀ buffer : Bytes, buffer.length = d.polynomialBytes → p.compress d buffer = .ok bytes) ∧
      decompress d bytes = .ok q ∧ ∀ t : Fin 256, (q.coeffs.get t).toInt = d.recovered (p.coeffs.get t).toInt := by
  obtain ⟨bytes, hlength, hok, hfields⟩ := compress_fields d hp
  obtain ⟨q, hq, -, hcoefficients⟩ := decompress_fields d hlength
  refine ⟨bytes, q, hlength, hok, hq, fun t => ?_⟩
  rw [hcoefficients, Width.recovered, ← hfields]
  norm_cast

/-- A list of strings of one length is as long as all of them, and its parts are the strings. -/
theorem part_flatten {size : Nat} {parts : List Bytes} (h : ∀ bytes ∈ parts, bytes.length = size) :
    parts.flatten.length = parts.length * size ∧
      ∀ (i : Nat) (hi : i < parts.length), part parts.flatten size i = parts[i] := by
  induction parts with
  | nil => simp
  | cons bytes parts ih =>
    obtain ⟨hbytes, hparts⟩ := List.forall_mem_cons.1 h
    obtain ⟨hlength, hget⟩ := ih hparts
    refine ⟨by rw [List.flatten_cons, List.length_append, hbytes, hlength, List.length_cons, Nat.succ_mul, Nat.add_comm], ?_⟩
    intro i hi
    cases i with
    | zero => rw [part, Nat.zero_mul, List.drop_zero, List.flatten_cons, List.take_left' hbytes, List.getElem_cons_zero]
    | succ i =>
      have hplace : (i + 1) * size = bytes.length + i * size := by rw [hbytes, Nat.succ_mul, Nat.add_comm]
      rw [part, List.flatten_cons, hplace, List.drop_length_add_append, List.getElem_cons_succ]
      exact hget i _

/-- Vectors of canonical coefficients are compressed and decompressed polynomial by polynomial. -/
theorem PolyVec.decompress_compress (d : Width) {v : PolyVec k} (hv : ∀ r : Fin k, (v.polys.get r).coeffs.Canonical) :
    ∃ (bytes : Bytes) (w : PolyVec k), bytes.length = k * d.polynomialBytes ∧
      (∀ buffer : Bytes, buffer.length = k * d.polynomialBytes → v.compress d buffer = .ok bytes) ∧
      decompress k d bytes = .ok w ∧
      ∀ (r : Fin k) (t : Fin 256), ((w.polys.get r).coeffs.get t).toInt = d.recovered ((v.polys.get r).coeffs.get t).toInt := by
  have hzeros : (List.replicate d.polynomialBytes (0 : UInt8)).length = d.polynomialBytes := List.length_replicate
  choose encoding q hlength hok hdecompress hcoefficients using fun r : Fin k => Poly.decompress_compress d (hv r)
  obtain ⟨parts, hparts, hcompress⟩ := compress_eq_flatten d hv
  have hget : ∀ r, parts.get r = encoding r := fun r => Except.ok.inj ((hparts r _ hzeros).symm.trans (hok r _ hzeros))
  have hsize : ∀ bytes ∈ parts.toList, bytes.length = d.polynomialBytes := by
    intro bytes hbytes
    obtain ⟨r, hr, rfl⟩ := Vector.mem_iff_getElem.1 (Vector.mem_toList_iff.1 hbytes)
    exact (congrArg List.length (hget ⟨r, hr⟩)).trans (hlength ⟨r, hr⟩)
  obtain ⟨hall, hpart⟩ := part_flatten hsize
  rw [Vector.length_toList] at hall
  obtain ⟨w, hw, hpolys⟩ := decompress_parts d hall
  refine ⟨_, w, hall, hcompress, hw, fun r t => ?_⟩
  have hpoly : part parts.toList.flatten (32 * d.bits) r = encoding r := by
    rw [← hget r, get_eq_getElem, ← Vector.getElem_toList (by rw [Vector.length_toList]; exact r.isLt)]
    exact hpart r _
  have hr := hpolys r
  rw [hpoly, hdecompress r] at hr
  rw [← Except.ok.inj hr, hcoefficients]

/-- Compression loses at most the two roundings. A vector of any rank with canonical coefficients is compressed at every width, to
the same bytes over every buffer of their length, and the bytes are decompressed. What comes back at a place is computed from
the coefficient at that place alone, and around the circle of residues it is at most `errorBound` away from it: 832, 104, 52, 2
and 1 at the five widths. At each of them some coefficient comes back at just that distance. -/
theorem compression_error :
    (Width.errorBound .one = 832 ∧ Width.errorBound .four = 104 ∧ Width.errorBound .five = 52 ∧ Width.errorBound .ten = 2 ∧
        Width.errorBound .eleven = 1) ∧
      (∀ (d : Width) (k : Nat) (v : PolyVec k), (∀ r : Fin k, (v.polys.get r).coeffs.Canonical) →
        ∃ (bytes : Bytes) (w : PolyVec k),
          (∀ buffer : Bytes, buffer.length = k * d.polynomialBytes → v.compress d buffer = .ok bytes) ∧
          PolyVec.decompress k d bytes = .ok w ∧ PolyVec.tryDecompress k d bytes = .ok w ∧
          ∀ (r : Fin k) (t : Fin 256),
            ((w.polys.get r).coeffs.get t).toInt = d.recovered ((v.polys.get r).coeffs.get t).toInt ∧
            circularDistance ((w.polys.get r).coeffs.get t).toInt ((v.polys.get r).coeffs.get t).toInt ≤ d.errorBound) ∧
      ∀ d : Width, ∃ c : Int, 0 ≤ c ∧ c < 3329 ∧ circularDistance (d.recovered c) c = d.errorBound := by
  refine ⟨by decide, ?_, Width.errorBound_reached⟩
  intro d k v hv
  obtain ⟨bytes, w, hlength, hcompress, hdecompress, hcoefficients⟩ := v.decompress_compress d hv
  refine ⟨bytes, w, hcompress, hdecompress, (if_pos hlength).trans hdecompress, fun r t => ⟨hcoefficients r t, ?_⟩⟩
  rw [hcoefficients]
  exact d.circularDistance_recovered_le _

/-- In one bit coefficient 64 of each of two ramps, which is 832, comes back as zero, at the greatest distance; in four bits
coefficient 255, which is 3315, wraps to zero and comes back at distance 14. -/
theorem compression_error_ramp :
    (∀ r : Fin 2, ((⟨Vector.replicate 2 Poly.ramp⟩ : PolyVec 2).polys.get r).coeffs.Canonical) ∧
      (∃ (bytes : Bytes) (w : PolyVec 2),
        PolyVec.compress .one (⟨Vector.replicate 2 Poly.ramp⟩ : PolyVec 2) (List.replicate 64 0xFF) = .ok bytes ∧
        PolyVec.decompress 2 .one bytes = .ok w ∧ ∀ r : Fin 2, ((w.polys.get r).coeffs.get 64).toInt = 0) ∧
      (∃ (bytes : Bytes) (w : PolyVec 2),
        PolyVec.compress .four (⟨Vector.replicate 2 Poly.ramp⟩ : PolyVec 2) (List.replicate 256 0xFF) = .ok bytes ∧
        PolyVec.decompress 2 .four bytes = .ok w ∧ ∀ r : Fin 2, ((w.polys.get r).coeffs.get 255).toInt = 0) ∧
      circularDistance 0 832 = Width.errorBound .one ∧ circularDistance 0 3315 = 14 := by
  have hcanonical : ∀ r : Fin 2, ((⟨Vector.replicate 2 Poly.ramp⟩ : PolyVec 2).polys.get r).coeffs.Canonical := by
    intro r
    rw [get_replicate]
    exact Poly.canonical_ramp
  obtain ⟨bytes, w, hone, hback, -, hcoefficients⟩ := compression_error.2.1 .one 2 _ hcanonical
  obtain ⟨bytes', w', hfour, hback', -, hcoefficients'⟩ := compression_error.2.1 .four 2 _ hcanonical
  refine ⟨hcanonical, ⟨bytes, w, hone _ List.length_replicate, hback, fun r => ?_⟩,
    ⟨bytes', w', hfour _ List.length_replicate, hback', fun r => ?_⟩, by decide, by decide⟩
  · rw [(hcoefficients r 64).1, get_replicate, Poly.toInt_ramp]
    rfl
  · rw [(hcoefficients' r 255).1, get_replicate, Poly.toInt_ramp]
    rfl

end ModuleLattice
