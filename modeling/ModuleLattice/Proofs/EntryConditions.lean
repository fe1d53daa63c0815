import ModuleLattice.Proofs.Codecs
import ModuleLattice.Proofs.EntryChecks
import ModuleLattice.Proofs.RingProduct

/-!
# When the operations stop

Every operation on polynomials and vectors stops exactly on its entry conditions: coefficients outside the range its first
checks demand, a buffer of the wrong length, or a sum without a word. No check on what a kernel delivers ever fires, none of the
checks inside the reductions and the codecs does, and nothing overflows but the sums and differences that are checked for it.
`operations_stop_at_entry` lists the conditions, type by type and in the order in which they are looked at.
-/

namespace ModuleLattice

/-! ## Conditions on coefficients -/

/-- Some coefficient reaches a bound in absolute value. -/
def Coeffs.Reaches {n : Nat} (bound : Nat) (x : Coeffs n) : Prop := ∃ t : Fin n, bound ≤ (x.get t).toInt.natAbs

/-- Some coefficient is not a canonical residue. -/
def Coeffs.LeavesResidues {n : Nat} (x : Coeffs n) : Prop := ∃ t : Fin n, ¬(0 ≤ (x.get t).toInt ∧ (x.get t).toInt < 3329)

/-- Some integer of a family has no 16-bit word. -/
def LeavesWord {n : Nat} (f : Fin n → Int) : Prop := ∃ t : Fin n, ¬(-32768 ≤ f t ∧ f t < 32768)

/-- The sum of two coefficients in the same place leaves the word. -/
def Coeffs.SumLeavesWord {n : Nat} (x y : Coeffs n) : Prop := LeavesWord fun t => (x.get t).toInt + (y.get t).toInt

/-- The difference of two coefficients in the same place leaves the word. -/
def Coeffs.DifferenceLeavesWord {n : Nat} (x y : Coeffs n) : Prop := LeavesWord fun t => (x.get t).toInt - (y.get t).toInt

/-- A check against a symmetric range stops if some coefficient reaches its bound. -/
theorem StopsOnlyAt.require_reaches {n bound : Nat} {c : Contract} (hc : c.range = .magnitudeBelow bound) (x : Coeffs n) :
    StopsOnlyAt (c.require x) [⟨x.Reaches bound, .contract c⟩] := by
  have hfails : ¬c.Holds x ↔ x.Reaches bound := by
    unfold Contract.Holds Coeffs.Reaches
    rw [hc]
    simp only [Range.Holds, not_forall, Nat.not_lt]
  rw [← hfails]
  exact .ensure _ _

/-- A check against the canonical range stops if some coefficient leaves it. -/
theorem StopsOnlyAt.require_residues {n : Nat} {c : Contract} (hc : c.range = .halfOpen 0 3329) (x : Coeffs n) :
    StopsOnlyAt (c.require x) [⟨x.LeavesResidues, .contract c⟩] := by
  have hfails : ¬c.Holds x ↔ x.LeavesResidues := by
    unfold Contract.Holds Coeffs.LeavesResidues
    rw [hc]
    simp only [Range.Holds, not_forall]
  rw [← hfails]
  exact .ensure _ _

/-- A sum or difference, checked entry by entry. -/
theorem StopsOnlyAt.fit16 {n : Nat} (operation : WordOperation) (f : Fin n → Int) :
    StopsOnlyAt (Vector.ofFnM fun t => Word.fit16 operation (f t)) [⟨LeavesWord f, .overflow operation⟩] := by
  refine .ofFnM_common fun t => ?_
  intro e
  by_cases h : -32768 ≤ f t ∧ f t < 32768 <;> simp [Word.fit16, FirstFailure, h, eq_comm]

/-! ## The codecs of one polynomial -/

/-- Compression looks at the buffer first, then at the coefficients. -/
theorem Width.stops_compress (d : Width) (x : Coeffs 256) (buffer : Bytes) : StopsOnlyAt (d.compress x buffer)
    [⟨buffer.length ≠ d.polynomialBytes, .bufferLength buffer.length d.polynomialBytes⟩,
      ⟨x.LeavesResidues, .contract .compressInput⟩] := by
  unfold Width.compress
  refine .bind (.ensure _ _) fun _ _ => .bind (.require_residues rfl x) fun _ hx => ?_
  obtain ⟨values, hvalues, -⟩ := d.compressed_values ((holds_iff_canonical rfl).1 (Contract.require_eq_ok_iff.1 hx))
  rw [hvalues]
  exact .of_ok rfl

/-- Decompression looks at the length only. -/
theorem Width.stops_decompress (d : Width) (bytes : Bytes) : StopsOnlyAt (d.decompress bytes)
    [⟨bytes.length ≠ d.polynomialBytes, .bufferLength bytes.length d.polynomialBytes⟩] := by
  by_cases h : bytes.length = d.polynomialBytes
  · obtain ⟨x, hx, -⟩ := d.decompress_spec h
    exact (StopsOnlyAt.passed_iff (not_not_intro h)).2 (.of_ok hx)
  · unfold Width.decompress
    rw [ensure, if_neg h]
    exact .of_failed h rfl

/-- The uncompressed encoding looks at the coefficients only. -/
theorem TwelveBit.stops_encode (x : Coeffs 256) :
    StopsOnlyAt (encode x) [⟨x.Reaches 3329, .contract .encodeInput⟩] := by
  unfold encode
  refine .bind (.require_reaches rfl x) fun _ hx => ?_
  obtain ⟨residues, hresidues, -⟩ := encode_residues (Contract.require_eq_ok_iff.1 hx)
  rw [hresidues]
  exact .of_ok rfl

/-! ## Polynomials -/

/-- When the operations on a polynomial stop. -/
structure Poly.EntryConditions (b : Backend) (p : Poly) : Prop where
  ntt : StopsOnlyAt (p.ntt b) [⟨p.coeffs.Reaches 3329, .contract .transformInput⟩]
  reduce : StopsOnlyAt (p.reduce b) []
  toMontgomery : StopsOnlyAt (p.toMontgomery b) []
  add (q : Poly) : StopsOnlyAt (p.add q) [⟨p.coeffs.SumLeavesWord q.coeffs, .overflow .add⟩]
  sub (q : Poly) : StopsOnlyAt (p.sub q) [⟨p.coeffs.DifferenceLeavesWord q.coeffs, .overflow .sub⟩]
  compress (d : Width) (buffer : Bytes) : StopsOnlyAt (p.compress d buffer)
    [⟨buffer.length ≠ d.polynomialBytes, .bufferLength buffer.length d.polynomialBytes⟩,
      ⟨p.coeffs.LeavesResidues, .contract .compressInput⟩]
  toMessage : StopsOnlyAt p.toMessage [⟨p.coeffs.LeavesResidues, .contract .compressInput⟩]

theorem Poly.entryConditions (b : Backend) (p : Poly) : Poly.EntryConditions b p where
  ntt := by
    rw [Poly.ntt_eq]
    exact (StopsOnlyAt.require_reaches rfl p.coeffs).map _
  reduce := (StopsOnlyAt.of_ok (Coeffs.reduce_eq_lane b p.coeffs)).map _
  toMontgomery := (StopsOnlyAt.of_ok (Coeffs.toMontgomery_eq_lane b p.coeffs)).map _
  add _ := (StopsOnlyAt.fit16 .add _).map _
  sub _ := (StopsOnlyAt.fit16 .sub _).map _
  compress d buffer := d.stops_compress p.coeffs buffer
  toMessage := (StopsOnlyAt.passed_iff (not_not_intro List.length_replicate)).1 (Width.one.stops_compress p.coeffs _)

/-! ## Transformed polynomials -/

/-- When the operations on a transformed polynomial stop. A product with the cache at hand runs on one backend, and the cache
was computed on another. -/
structure NttPoly.EntryConditions (b b' : Backend) (p : NttPoly) : Prop where
  nttInverse : StopsOnlyAt (p.nttInverse b) [⟨p.coeffs.Reaches 16384, .contract .inverseInput⟩]
  reduce : StopsOnlyAt (p.reduce b) []
  toMontgomery : StopsOnlyAt (p.toMontgomery b) []
  add (q : NttPoly) : StopsOnlyAt (p.add q) [⟨p.coeffs.SumLeavesWord q.coeffs, .overflow .add⟩]
  mulCache : StopsOnlyAt (p.mulCache b) []
  cached : StopsOnlyAt (p.cached b) []
  mul (q : NttPoly) : StopsOnlyAt (p.mul b q)
    [⟨p.coeffs.Reaches 4096, .contract .productLeft⟩, ⟨q.coeffs.Reaches 26632, .contract .productRight⟩]
  mulCached (q : NttPoly) : StopsOnlyAt (do p.mulCached b (← q.cached b'))
    [⟨p.coeffs.Reaches 4096, .contract .productLeft⟩, ⟨q.coeffs.Reaches 26632, .contract .productRight⟩]
  toBytes : StopsOnlyAt p.toBytes [⟨p.coeffs.Reaches 3329, .contract .encodeInput⟩]

/-- The check of a cache that was computed from a polynomial passes. -/
theorem require_mulCache {c : Contract} (hc : c.range = .magnitudeBelow 3329) (x : Coeffs 256) :
    StopsOnlyAt (c.require (Lane.mulCache x)) [] := .of_ok (require_of_atMost hc (atMost_mulCache x))

/-- A product with a polynomial that comes with its cache looks at the two polynomials only. -/
theorem NttPoly.stops_mulCached (b : Backend) (p q : NttPoly) : StopsOnlyAt (p.mulCached b ⟨q, ⟨Lane.mulCache q.coeffs⟩⟩)
    [⟨p.coeffs.Reaches 4096, .contract .productLeft⟩, ⟨q.coeffs.Reaches 26632, .contract .productRight⟩] := by
  rw [NttPoly.mulCached_eq]
  refine .bind (.require_reaches rfl p.coeffs) fun _ _ => .bind (.require_reaches rfl q.coeffs) fun _ _ => ?_
  exact (require_mulCache rfl q.coeffs).map _

theorem NttPoly.entryConditions (b b' : Backend) (p : NttPoly) : NttPoly.EntryConditions b b' p where
  nttInverse := by
    rw [NttPoly.nttInverse_eq]
    exact (StopsOnlyAt.require_reaches rfl p.coeffs).map _
  reduce := (StopsOnlyAt.of_ok (Coeffs.reduce_eq_lane b p.coeffs)).map _
  toMontgomery := (StopsOnlyAt.of_ok (Coeffs.toMontgomery_eq_lane b p.coeffs)).map _
  add _ := (StopsOnlyAt.fit16 .add _).map _
  mulCache := .of_ok (NttPoly.mulCache_eq_lane b p)
  cached := .of_ok (NttPoly.cached_eq_lane b p)
  mul q := by
    rw [NttPoly.mul_eq]
    exact NttPoly.stops_mulCached b p q
  mulCached q := by
    rw [NttPoly.cached_eq_lane, ok_bind]
    exact NttPoly.stops_mulCached b p q
  toBytes := TwelveBit.stops_encode p.coeffs

variable {k : Nat}

/-! ## Vectors of polynomials -/

/-- When the operations on a vector of polynomials stop. -/
structure PolyVec.EntryConditions (b : Backend) (v : PolyVec k) : Prop where
  ntt : StopsOnlyAt (v.ntt b) [⟨∃ i : Fin k, (v.polys.get i).coeffs.Reaches 3329, .contract .transformInput⟩]
  reduce : StopsOnlyAt (v.reduce b) []
  add (w : PolyVec k) : StopsOnlyAt (v.add w)
    [⟨∃ i : Fin k, (v.polys.get i).coeffs.SumLeavesWord (w.polys.get i).coeffs, .overflow .add⟩]
  sub (w : PolyVec k) : StopsOnlyAt (v.sub w)
    [⟨∃ i : Fin k, (v.polys.get i).coeffs.DifferenceLeavesWord (w.polys.get i).coeffs, .overflow .sub⟩]
  compress (d : Width) (buffer : Bytes) : StopsOnlyAt (v.compress d buffer)
    [⟨buffer.length ≠ k * d.polynomialBytes, .vectorBufferLength buffer.length (k * d.polynomialBytes)⟩,
      ⟨∃ i : Fin k, (v.polys.get i).coeffs.LeavesResidues, .contract .compressInput⟩]

/-- A part of a byte string that holds all parts has its size. -/
theorem length_part {bytes : Bytes} {size : Nat} (h : bytes.length = k * size) (i : Fin k) :
    (part bytes size i).length = size := by
  have hplace : i.val * size + size ≤ k * size := Nat.succ_mul i.val size ▸ Nat.mul_le_mul_right size i.isLt
  rw [part, List.length_take, List.length_drop, h]
  omega

theorem PolyVec.entryConditions (b : Backend) (v : PolyVec k) : PolyVec.EntryConditions b v where
  ntt := (StopsOnlyAt.ofFnM_common fun i => (Poly.entryConditions b (v.polys.get i)).ntt).map _
  reduce := (StopsOnlyAt.ofFnM_nil fun i => (Poly.entryConditions b (v.polys.get i)).reduce).map _
  add w := (StopsOnlyAt.ofFnM_common fun i => (Poly.entryConditions b (v.polys.get i)).add (w.polys.get i)).map _
  sub w := (StopsOnlyAt.ofFnM_common fun i => (Poly.entryConditions b (v.polys.get i)).sub (w.polys.get i)).map _
  compress d buffer := by
    refine .bind (.ensure _ _) fun _ h => ?_
    have hpart (i : Fin k) : (part buffer d.polynomialBytes i).length = d.polynomialBytes :=
      length_part (ensure_eq_ok_iff.1 h) i
    refine (StopsOnlyAt.ofFnM_common fun i => ?_).map _
    exact (StopsOnlyAt.passed_iff (not_not_intro (hpart i))).1 (d.stops_compress _ _)

/-! ## Vectors of transformed polynomials -/

/-- What an inner product looks at: the left and the right polynomial of every place, place after place. -/
def NttVec.productChecks (v w : NttVec k) : List EntryCheck :=
  (List.finRange k).flatMap fun i =>
    [⟨(v.polys.get i).coeffs.Reaches 4096, .contract .innerProductLeft⟩,
      ⟨(w.polys.get i).coeffs.Reaches 26632, .contract .innerProductRight⟩]

/-- When the operations on a vector of transformed polynomials stop. An inner product with the caches at hand runs on one
backend, and the caches were computed on another. -/
structure NttVec.EntryConditions (b b' : Backend) (v : NttVec k) : Prop where
  nttInverse : StopsOnlyAt (v.nttInverse b) [⟨∃ i : Fin k, (v.polys.get i).coeffs.Reaches 16384, .contract .inverseInput⟩]
  reduce : StopsOnlyAt (v.reduce b) []
  toMontgomery : StopsOnlyAt (v.toMontgomery b) []
  add (w : NttVec k) : StopsOnlyAt (v.add w)
    [⟨∃ i : Fin k, (v.polys.get i).coeffs.SumLeavesWord (w.polys.get i).coeffs, .overflow .add⟩]
  cached : StopsOnlyAt (v.cached b) []
  innerProduct (w : NttVec k) : StopsOnlyAt (v.innerProduct b w) (v.productChecks w)
  innerProductCached (w : NttVec k) : StopsOnlyAt (do v.innerProductCached b (← w.cached b')) (v.productChecks w)
  toBytes (buffer : Bytes) : StopsOnlyAt (v.toBytes buffer)
    [⟨buffer.length ≠ k * 384, .vectorBufferLength buffer.length (k * 384)⟩,
      ⟨∃ i : Fin k, (v.polys.get i).coeffs.Reaches 3329, .contract .encodeInput⟩]

/-- One pair of factors, the right one with the cache computed from it. -/
theorem stops_requireFactors (x y : NttPoly) : StopsOnlyAt (NttVec.requireFactors (x.factors y))
    [⟨x.coeffs.Reaches 4096, .contract .innerProductLeft⟩, ⟨y.coeffs.Reaches 26632, .contract .innerProductRight⟩] :=
  .bind (.require_reaches rfl x.coeffs) fun _ _ => .bind (.require_reaches rfl y.coeffs) fun _ _ => require_mulCache rfl y.coeffs

/-- An inner product with a vector that comes with its caches looks at the polynomials of the two vectors only. -/
theorem NttVec.stops_innerProductCached (b : Backend) (hk : k ≤ 4) (v w : NttVec k) :
    StopsOnlyAt (v.innerProductCached b w.withCaches) (v.productChecks w) := by
  have hchecks : StopsOnlyAt ((v.factorList w).forM NttVec.requireFactors) ((v.factorList w).flatMap fun f =>
      [⟨f.left.Reaches 4096, .contract .innerProductLeft⟩, ⟨f.right.Reaches 26632, .contract .innerProductRight⟩]) := by
    refine .forM fun f hf => ?_
    obtain ⟨i, rfl⟩ := List.mem_ofFn.1 hf
    exact stops_requireFactors _ _
  have hfactors : v.factorList w = (List.finRange k).map fun i => (v.polys.get i).factors (w.polys.get i) := List.ofFn_eq_map
  rw [hfactors, List.flatMap_map] at hchecks
  rw [NttVec.innerProductCached_eq b hk, NttVec.factors_withCaches, hfactors]
  exact hchecks.map _

/-- The uncompressed encoding looks at the buffer first, then at the coefficients. -/
theorem NttVec.stops_toBytes (v : NttVec k) (buffer : Bytes) : StopsOnlyAt (v.toBytes buffer)
    [⟨buffer.length ≠ k * 384, .vectorBufferLength buffer.length (k * 384)⟩,
      ⟨∃ i : Fin k, (v.polys.get i).coeffs.Reaches 3329, .contract .encodeInput⟩] := by
  refine .bind (.ensure _ _) fun _ _ => ?_
  exact (StopsOnlyAt.ofFnM_common fun i => TwelveBit.stops_encode (v.polys.get i).coeffs).map _

theorem NttVec.entryConditions (b b' : Backend) (hk : k ≤ 4) (v : NttVec k) : NttVec.EntryConditions b b' v where
  nttInverse := (StopsOnlyAt.ofFnM_common fun i => (NttPoly.entryConditions b b' (v.polys.get i)).nttInverse).map _
  reduce := (StopsOnlyAt.ofFnM_nil fun i => (NttPoly.entryConditions b b' (v.polys.get i)).reduce).map _
  toMontgomery := (StopsOnlyAt.ofFnM_nil fun i => (NttPoly.entryConditions b b' (v.polys.get i)).toMontgomery).map _
  add w := (StopsOnlyAt.ofFnM_common fun i => (NttPoly.entryConditions b b' (v.polys.get i)).add (w.polys.get i)).map _
  cached := .of_ok (NttVec.cached_eq_lane b v)
  innerProduct w := by
    rw [NttVec.innerProduct_eq]
    exact NttVec.stops_innerProductCached b hk v w
  innerProductCached w := by
    rw [NttVec.cached_eq_lane, ok_bind]
    exact NttVec.stops_innerProductCached b hk v w
  toBytes := NttVec.stops_toBytes v

/-! ## Decoding -/

/-- When decoding stops: on a wrong length, where the type of the argument leaves the length open. -/
structure DecodingConditions (k : Nat) : Prop where
  decompress (d : Width) (bytes : Bytes) : StopsOnlyAt (Poly.decompress d bytes)
    [⟨bytes.length ≠ d.polynomialBytes, .bufferLength bytes.length d.polynomialBytes⟩]
  decompressVec (d : Width) (bytes : Bytes) : StopsOnlyAt (PolyVec.decompress k d bytes)
    [⟨bytes.length ≠ k * d.polynomialBytes, .vectorBufferLength bytes.length (k * d.polynomialBytes)⟩]
  ofMessage (message : Vector UInt8 32) : StopsOnlyAt (Poly.ofMessage message) []
  ofBytes (bytes : Vector UInt8 384) : StopsOnlyAt (NttPoly.ofBytes bytes) []
  vecOfBytes (bytes : Bytes) : StopsOnlyAt (NttVec.ofBytes k bytes)
    [⟨bytes.length ≠ k * 384, .vectorBufferLength bytes.length (k * 384)⟩]

/-- An encoding of the right length can be decoded. -/
theorem NttPoly.stops_ofBytes (bytes : Vector UInt8 384) : StopsOnlyAt (NttPoly.ofBytes bytes) [] := by
  obtain ⟨x, hx, -⟩ := TwelveBit.decode_spec bytes
  exact (StopsOnlyAt.of_ok hx).map _

theorem decodingConditions (k : Nat) : DecodingConditions k where
  decompress d bytes := (d.stops_decompress bytes).map _
  decompressVec d bytes := by
    refine .bind (.ensure _ _) fun _ h => ?_
    refine (StopsOnlyAt.ofFnM_nil fun i => ?_).map _
    have hpart := length_part (ensure_eq_ok_iff.1 h) i
    exact ((StopsOnlyAt.passed_iff (not_not_intro hpart)).1 (d.stops_decompress _)).map _
  ofMessage message := ((StopsOnlyAt.passed_iff (not_not_intro message.length_toList)).1 (Width.one.stops_decompress _)).map _
  ofBytes := NttPoly.stops_ofBytes
  vecOfBytes bytes := by
    unfold NttVec.ofBytes
    split
    · rename_i h
      refine (StopsOnlyAt.passed_iff (not_not_intro h)).2 ?_
      exact (StopsOnlyAt.ofFnM_nil fun i => NttPoly.stops_ofBytes _).map _
    · rename_i h
      exact .of_failed h rfl

/-! ## All operations -/

/-- Operations stop exactly on their entry conditions. For all coefficients, all ranks up to four and every backend, also where
a multiplication cache was computed on another one, each operation on polynomials and vectors answers if none of its entry
conditions is met, and otherwise stops with the fault of the first one that is: no other check fires on the way, and nothing
overflows but a sum or difference of coefficients. -/
theorem operations_stop_at_entry (hk : k ≤ 4) (b b' : Backend) :
    (∀ p : Poly, Poly.EntryConditions b p) ∧ (∀ p : NttPoly, NttPoly.EntryConditions b b' p) ∧
      (∀ v : PolyVec k, PolyVec.EntryConditions b v) ∧ (∀ v : NttVec k, NttVec.EntryConditions b b' v) ∧
      DecodingConditions k :=
  ⟨Poly.entryConditions b, NttPoly.entryConditions b b', PolyVec.entryConditions b, NttVec.entryConditions b b' hk,
    decodingConditions k⟩

/-- The inner product of the largest vectors answers; with the operands exchanged, the first left coefficient stops it. -/
theorem innerProduct_largest_stops :
    (∃ r, NttVec.largestLeft.innerProduct (.simd .eight) NttVec.largestRight = .ok r) ∧
      NttVec.largestRight.innerProduct (.simd .eight) NttVec.largestLeft = .error (.contract .innerProductLeft) := by
  obtain ⟨-, -, -, hvec, -⟩ := operations_stop_at_entry (Nat.le_refl 4) (.simd .eight) .reference
  constructor
  · refine ((hvec NttVec.largestLeft).innerProduct NttVec.largestRight).answers_iff.2 ?_
    intro c hc
    obtain ⟨i, -, hc⟩ := List.mem_flatMap.1 hc
    rcases List.mem_pair.1 hc with rfl | rfl
    · rintro ⟨t, ht⟩
      rw [NttVec.natAbs_largestLeft] at ht
      exact absurd ht (by decide)
    · rintro ⟨t, ht⟩
      rw [NttVec.natAbs_largestRight] at ht
      exact absurd ht (by decide)
  · refine ((hvec NttVec.largestRight).innerProduct NttVec.largestLeft _).2 ?_
    refine Or.inl ⟨⟨0, ?_⟩, rfl⟩
    rw [NttVec.natAbs_largestRight]
    decide

end ModuleLattice
