import ModuleLattice.Proofs.EntryConditions

/-!
# The modulus check of the uncompressed encoding

Every string of the right length is decoded, also where a field of twelve bits is no residue of the modulus. Which strings are
encodings is found out by encoding again: after a reduction the encoding gives the string back exactly if all of its fields are
residues, and without one it either gives the string back or stops on its entry check (`modulus_check`). Both follow from what the
encoding writes, the remainders of the coefficients field by field, and neither depends on where in its bytes a field lies.
-/

namespace ModuleLattice

open Digits

variable {k : Nat}

/-- Of the first `count` fields of twelve bits every one is a residue of the modulus. -/
def ResidueFields (count : Nat) (bytes : Bytes) : Prop := ∀ i < count, field 12 bytes i < 3329

/-- What is found out about the string `bytes` by encoding the value `x` that was decoded from it. `residues` says that all fields of
the string are residues. -/
structure ModulusCheck {α β : Type} (reduce : Backend → α → Except Fault α) (encode : α → Except Fault β) (residues : Prop)
    (bytes : β) (x : α) : Prop where
  reduced : ∃ y encoding, (∀ b : Backend, reduce b x = .ok y) ∧ encode y = .ok encoding ∧ (encoding = bytes ↔ residues)
  accepted : residues → encode x = .ok bytes
  refused : ¬residues → ∃ fault, encode x = .error fault ∧
    fault.message = "to_bytes input: coefficient outside (-3329, 3329)"

/-- The check follows from what an encoding does on a family of coefficients: it stops unless all of them are signed residues, and
gives a string exactly if its fields are their remainders. -/
theorem ModulusCheck.of_fields {α β ι : Type} {reduce : Backend → α → Except Fault α} {encode : α → Except Fault β}
    (coefficient : α → ι → Int) {fieldAt : ι → Nat} {bytes : β} {x : α}
    (hstops : ∀ y, StopsOnlyAt (encode y) [⟨∃ i, 3329 ≤ (coefficient y i).natAbs, .contract .encodeInput⟩])
    (hencode : ∀ y, (∀ i, (coefficient y i).natAbs < 3329) →
      (encode y = .ok bytes ↔ ∀ i, (fieldAt i : Int) = coefficient y i % 3329))
    (hreduce : ∃ y, (∀ b : Backend, reduce b x = .ok y) ∧ ∀ i, coefficient y i = coefficient x i % 3329)
    (hx : ∀ i, coefficient x i = fieldAt i) : ModulusCheck reduce encode (∀ i, fieldAt i < 3329) bytes x where
  reduced := by
    obtain ⟨y, hy, hvalues⟩ := hreduce
    have hsmall : ∀ i, (coefficient y i).natAbs < 3329 := by
      intro i
      rw [hvalues]
      omega
    obtain ⟨encoding, hok⟩ := (hstops y).answers_iff.2 (List.forall_mem_singleton.2 fun ⟨i, hi⟩ => absurd (hsmall i) (not_lt.2 hi))
    refine ⟨y, encoding, hy, hok, ?_⟩
    -- What is written are the remainders of the fields, and a field is its own remainder exactly if it is a residue.
    rw [← Except.ok.injEq, ← hok, hencode y hsmall]
    refine forall_congr' fun i => ?_
    rw [hvalues, hx]
    omega
  accepted h := by
    have hsmall : ∀ i, (coefficient x i).natAbs < 3329 := by
      intro i
      rw [hx]
      exact h i
    refine (hencode x hsmall).2 fun i => ?_
    have hi := h i
    rw [hx]
    omega
  refused h := by
    obtain ⟨i, hi⟩ := not_forall.1 h
    have hlarge : ∃ i, 3329 ≤ (coefficient x i).natAbs := ⟨i, by rw [hx]; exact not_lt.1 hi⟩
    exact ⟨.contract .encodeInput, (hstops x _).2 (Or.inl ⟨hlarge, rfl⟩), rfl⟩

/-! ## One polynomial -/

namespace NttPoly

/-- Any string of the right length is decoded to its fields. -/
theorem ofBytes_fields (bytes : Vector UInt8 384) :
    ∃ p, ofBytes bytes = .ok p ∧ ∀ t : Fin 256, (p.coeffs.get t).toInt = field 12 bytes.toList t := by
  obtain ⟨x, hx, hfields⟩ := TwelveBit.decode_spec bytes
  exact ⟨⟨x⟩, by rw [ofBytes, hx]; rfl, hfields⟩

theorem toInt_reduced (p : NttPoly) (t : Fin 256) :
    ((p.coeffs.map Lane.canonical).get t).toInt = (p.coeffs.get t).toInt % 3329 := by
  rw [get_map]
  exact (canonical_spec _).2

theorem modulusCheck {bytes : Vector UInt8 384} {p : NttPoly}
    (hp : ∀ t : Fin 256, (p.coeffs.get t).toInt = field 12 bytes.toList t) :
    ModulusCheck reduce toBytes (ResidueFields 256 bytes.toList) bytes p := by
  have hcheck : ModulusCheck reduce toBytes (∀ t : Fin 256, field 12 bytes.toList t < 3329) bytes p := by
    refine .of_fields (fun (y : NttPoly) (t : Fin 256) => (y.coeffs.get t).toInt) ?_ ?_
      ⟨_, fun b => reduce_eq_lane b p, toInt_reduced p⟩ hp
    · exact fun y => TwelveBit.stops_encode y.coeffs
    · exact fun y hy => TwelveBit.encode_eq_ok_iff hy
  rwa [Fin.forall_iff] at hcheck

end NttPoly

/-! ## Vectors -/

/-- A block of a string with a known length is a part of it. -/
theorem toList_block {size : Nat} (bytes : Vector UInt8 (k * size)) (r : Fin k) :
    (block k size bytes r).toList = part bytes.toList size r := by
  have hlength := length_part bytes.length_toList r
  refine List.ext_getElem (by rw [Vector.length_toList, hlength]) ?_
  intro i hi _
  rw [Vector.length_toList] at hi
  simp [getElem_block, part]

/-- The fields of the part of a string that belongs to one polynomial. -/
theorem field_part {bytes : Bytes} {r i : Nat} (hi : i < 256) : field 12 (part bytes 384 r) i = field 12 bytes (256 * r + i) := by
  refine congrArg (value 1) (List.map_congr_left fun j hj => ?_)
  have hj := List.mem_range.1 hj
  rw [part, bitAt_stretch (by omega)]
  exact congrArg (bitAt bytes) (by ring)

namespace NttVec

/-- Vectors of signed residues are encoded to a given string exactly if its fields are their remainders. -/
theorem toBytes_eq_ok_iff {v : NttVec k} (hv : ∀ r : Fin k, Contract.encodeInput.Holds (v.polys.get r).coeffs)
    {bytes buffer : Bytes} (hbytes : bytes.length = k * 384) (hbuffer : buffer.length = k * 384) :
    v.toBytes buffer = .ok bytes ↔ ∀ (r : Fin k) (t : Fin 256),
      (field 12 bytes (256 * r + t) : Int) = ((v.polys.get r).coeffs.get t).toInt % 3329 := by
  obtain ⟨all, rfl⟩ : ∃ all : Vector UInt8 (k * 384), all.toList = bytes := ⟨⟨bytes.toArray, by simpa using hbytes⟩, rfl⟩
  have hblock : ∀ r : Fin k, (v.polys.get r).toBytes = .ok (block k 384 all r) ↔
      ∀ t : Fin 256, (field 12 all.toList (256 * r + t) : Int) = ((v.polys.get r).coeffs.get t).toInt % 3329 := by
    intro r
    refine (TwelveBit.encode_eq_ok_iff (hv r)).trans (forall_congr' fun t => ?_)
    rw [toList_block, field_part t.isLt]
  have hflatten : v.toBytes buffer = .ok all.toList ↔
      (Vector.ofFnM (fun r : Fin k => (v.polys.get r).toBytes) >>= fun parts => pure parts.flatten) = .ok all := by
    unfold toBytes
    rw [ensure_bind_eq_ok_iff, bind_eq_ok_iff, bind_eq_ok_iff, and_iff_right (show buffer.length = encodedBytes k from hbuffer)]
    refine exists_congr fun parts => and_congr_right fun _ => ?_
    constructor
    · exact fun h => congrArg Except.ok (Vector.toList_inj.1 (Except.ok.inj h))
    · exact fun h => congrArg Except.ok (Vector.toList_inj.2 (Except.ok.inj h))
  rw [hflatten, flatten_ofFnM_eq_ok_iff, forall_congr' hblock]

/-- Any string of the right length is decoded to its fields. -/
theorem tryOfBytes_fields {bytes : Bytes} (h : bytes.length = k * 384) :
    ∃ v : NttVec k, tryOfBytes k bytes = .ok v ∧
      ∀ (r : Fin k) (t : Fin 256), ((v.polys.get r).coeffs.get t).toInt = field 12 bytes (256 * r + t) := by
  have hlength : bytes.length = encodedBytes k := h
  obtain ⟨polys, hpolys, hfields⟩ := ofFnM_answers fun r : Fin k =>
    NttPoly.ofBytes_fields (block k 384 ⟨bytes.toArray, by simpa using h⟩ r)
  refine ⟨⟨polys⟩, ?_, ?_⟩
  · rw [tryOfBytes, if_pos hlength, ofBytes, dif_pos hlength]
    dsimp only
    rw [hpolys]
    rfl
  · intro r t
    rw [hfields r t, toList_block, field_part t.isLt]
    rfl

theorem reduce_fields (v : NttVec k) : ∃ w : NttVec k, (∀ b : Backend, v.reduce b = .ok w) ∧
    ∀ (r : Fin k) (t : Fin 256), ((w.polys.get r).coeffs.get t).toInt = ((v.polys.get r).coeffs.get t).toInt % 3329 := by
  refine ⟨⟨v.polys.map fun p => ⟨p.coeffs.map Lane.canonical⟩⟩, ?_, ?_⟩
  · intro b
    have hloop : (Vector.ofFnM fun r : Fin k => (v.polys.get r).reduce b) =
        .ok (v.polys.map fun p => ⟨p.coeffs.map Lane.canonical⟩) := by
      refine ofFnM_eq_ok_iff.2 fun r => ?_
      rw [get_map]
      exact NttPoly.reduce_eq_lane b _
    rw [reduce, hloop]
    rfl
  · intro r t
    rw [get_map]
    exact NttPoly.toInt_reduced _ t

/-- The fields of a vector, polynomial by polynomial. -/
theorem residueFields_iff {bytes : Bytes} :
    ResidueFields (k * 256) bytes ↔ ∀ i : Fin k × Fin 256, field 12 bytes (256 * i.1 + i.2) < 3329 := by
  constructor
  · rintro h ⟨r, t⟩
    refine h _ ?_
    rw [Nat.mul_comm 256]
    exact block_index_lt r.isLt t.isLt
  · intro h i hi
    have hplace := h ⟨⟨i / 256, Nat.div_lt_of_lt_mul (Nat.mul_comm k 256 ▸ hi)⟩, ⟨i % 256, Nat.mod_lt i (by decide)⟩⟩
    rwa [Nat.div_add_mod] at hplace

theorem modulusCheck {bytes buffer : Bytes} {v : NttVec k} (hbytes : bytes.length = k * 384) (hbuffer : buffer.length = k * 384)
    (hv : ∀ (r : Fin k) (t : Fin 256), ((v.polys.get r).coeffs.get t).toInt = field 12 bytes (256 * r + t)) :
    ModulusCheck reduce (·.toBytes buffer) (ResidueFields (k * 256) bytes) bytes v := by
  obtain ⟨w, hw, hvalues⟩ := v.reduce_fields
  rw [residueFields_iff]
  refine .of_fields (fun v i => ((v.polys.get i.1).coeffs.get i.2).toInt) ?_ ?_
    ⟨w, hw, fun i => hvalues i.1 i.2⟩ fun i => hv i.1 i.2
  · intro y
    have hstops := (StopsOnlyAt.passed_iff (not_not_intro hbuffer)).1 (y.stops_toBytes buffer)
    simpa only [Coeffs.Reaches, Prod.exists] using hstops
  · intro y hy
    rw [toBytes_eq_ok_iff (fun r t => hy (r, t)) hbytes hbuffer, Prod.forall]

end NttVec

/-- The uncompressed encoding supports the modulus check. Any string of the length of an encoded polynomial, or of a vector of any
rank, is decoded: the coefficients are its fields of twelve bits, from 0 to 4095. Reduced by any backend and encoded again, they
give the string back exactly if all fields are below the modulus. Without the reduction the encoding gives the string back if they
are, over any buffer, and otherwise it stops and names its entry check. -/
theorem modulus_check :
    (∀ bytes : Vector UInt8 384, ∃ p : NttPoly, NttPoly.tryOfBytes bytes.toList = .ok p ∧
        (∀ t : Fin 256, (p.coeffs.get t).toInt = field 12 bytes.toList t ∧ (p.coeffs.get t).toInt < 4096) ∧
        ModulusCheck NttPoly.reduce NttPoly.toBytes (ResidueFields 256 bytes.toList) bytes p) ∧
      ∀ (k : Nat) (bytes : Bytes), bytes.length = k * 384 → ∃ v : NttVec k, NttVec.tryOfBytes k bytes = .ok v ∧
        (∀ (r : Fin k) (t : Fin 256), ((v.polys.get r).coeffs.get t).toInt = field 12 bytes (256 * r + t) ∧
          ((v.polys.get r).coeffs.get t).toInt < 4096) ∧
        ∀ buffer : Bytes, buffer.length = k * 384 →
          ModulusCheck NttVec.reduce (fun w => w.toBytes buffer) (ResidueFields (k * 256) bytes) bytes v := by
  have hlt : ∀ (bytes : Bytes) (i : Nat), (field 12 bytes i : Int) < 4096 := fun bytes i => Int.ofNat_lt.2 (field_lt 12 bytes i)
  constructor
  · intro bytes
    obtain ⟨p, hp, hfields⟩ := NttPoly.ofBytes_fields bytes
    refine ⟨p, ?_, fun t => ⟨hfields t, hfields t ▸ hlt _ _⟩, NttPoly.modulusCheck hfields⟩
    rw [NttPoly.tryOfBytes, dif_pos bytes.length_toList]
    exact hp
  · intro k bytes h
    obtain ⟨v, hv, hfields⟩ := NttVec.tryOfBytes_fields h
    exact ⟨v, hv, fun r t => ⟨hfields r t, hfields r t ▸ hlt _ _⟩, fun _ hbuffer => NttVec.modulusCheck h hbuffer hfields⟩

/-- The greatest residue is the last field that passes. A vector whose first field is 3328 and whose others are zero comes back;
with 3329 in its place the encoding stops, and after a reduction it gives another string. -/
theorem modulus_check_boundary :
    (∃ v : NttVec 2, NttVec.tryOfBytes 2 (0x00 :: 0x0D :: List.replicate 766 0) = .ok v ∧
        v.toBytes (List.replicate 768 7) = .ok (0x00 :: 0x0D :: List.replicate 766 0)) ∧
      ∃ v w : NttVec 2, NttVec.tryOfBytes 2 (0x01 :: 0x0D :: List.replicate 766 0) = .ok v ∧
        (∃ fault, v.toBytes (List.replicate 768 7) = .error fault ∧
          fault.message = "to_bytes input: coefficient outside (-3329, 3329)") ∧
        v.reduce .reference = .ok w ∧ w.toBytes (List.replicate 768 7) ≠ .ok (0x01 :: 0x0D :: List.replicate 766 0) := by
  have hbuffer : (List.replicate 768 (7 : UInt8)).length = 2 * 384 := List.length_replicate
  have hlength (b : UInt8) : (b :: 0x0D :: List.replicate 766 0).length = 2 * 384 := by
    rw [List.length_cons, List.length_cons, List.length_replicate]
  have hzeros (n : Nat) : value 8 (List.replicate n 0) = 0 := by
    induction n with
    | zero => rfl
    | succ n ih => rw [List.replicate_succ, value_cons, ih, Nat.mul_zero, Nat.add_zero]
  have hvalue : value 8 ((0x00 :: 0x0D :: List.replicate 766 0 : Bytes).map UInt8.toNat) = 3328 := by
    rw [List.map_cons, List.map_cons, List.map_replicate, value_cons, value_cons, UInt8.toNat_zero, hzeros]
    rfl
  have hpasses : ResidueFields (2 * 256) (0x00 :: 0x0D :: List.replicate 766 0) := by
    intro i _
    rw [field_eq_digit, hvalue]
    exact Nat.lt_succ_of_le ((Nat.mod_le _ _).trans (Nat.div_le_self _ _))
  have hfails : ¬ResidueFields (2 * 256) (0x01 :: 0x0D :: List.replicate 766 0) :=
    fun h => absurd (h 0 (by decide)) (by decide)
  obtain ⟨v, hv, -, hcheck⟩ := modulus_check.2 2 _ (hlength 0x00)
  obtain ⟨v', hv', -, hcheck'⟩ := modulus_check.2 2 _ (hlength 0x01)
  obtain ⟨w, encoding, hw, hok, hback⟩ := (hcheck' _ hbuffer).reduced
  refine ⟨⟨v, hv, (hcheck _ hbuffer).accepted hpasses⟩, v', w, hv', (hcheck' _ hbuffer).refused hfails, hw .reference, ?_⟩
  intro h
  exact hfails (hback.1 (Except.ok.inj (hok.symm.trans h)))

end ModuleLattice
