import ModuleLattice.Codec.Encoding
import ModuleLattice.Proofs.Packings
import ModuleLattice.Proofs.Reduction

/-!
# The codecs behind their entry checks

A codec checks the length of its buffer and the range of its coefficients, and then computes without a further way to fail: a
canonical coefficient can be compressed, digits read from bytes have as many bits as their width allows, what they stand for is
canonical, and a signed residue has an unsigned form.
-/

namespace ModuleLattice

/-! ## Signed and unsigned words -/

/-- The unsigned form of a word that is not negative has its value. -/
theorem toNat_toUInt16 {c : Int16} (h : 0 ≤ c.toInt) : (c.toUInt16.toNat : Int) = c.toInt := by
  have hbits : c.toUInt16.toNat = c.toBitVec.toNat := rfl
  rw [← Int16.toInt_toBitVec, BitVec.toInt_eq_toNat_cond] at h ⊢
  split at h <;> split <;> omega

/-- The signed form of a small word has its value. -/
theorem toInt_toInt16 {u : UInt16} (h : u.toNat < 32768) : u.toInt16.toInt = u.toNat := by
  rw [← Int16.toInt_toBitVec, BitVec.toInt_eq_toNat_cond, UInt16.toBitVec_toInt16, UInt16.toNat_toBitVec]
  split <;> omega

/-- A digit read from bytes. -/
theorem Digits.toNat_get_unpack {bits : Nat} (hbits : bits ≤ 16) (bytes : Bytes) (i : Fin 256) :
    ((unpack bits bytes).get i).toNat = digit bits (value 8 (bytes.map UInt8.toNat)) i := by
  have hlt : digit bits (value 8 (bytes.map UInt8.toNat)) i < 2 ^ 16 :=
    (digit_lt bits _ i).trans_le (Nat.pow_le_pow_right (by decide) hbits)
  rw [unpack, get_ofFn, UInt16.toNat_ofNat', Nat.mod_eq_of_lt hlt]

/-- A digit read from bytes has no more bits than its width allows. -/
theorem Digits.get_unpack_lt {bits : Nat} (hbits : bits ≤ 16) (bytes : Bytes) (i : Fin 256) :
    ((unpack bits bytes).get i).toNat < 2 ^ bits := by
  rw [toNat_get_unpack hbits]
  exact digit_lt bits _ i

/-! ## Compression -/

namespace Width

theorem bits_le (d : Width) : d.bits ≤ 11 := by
  cases d <;> decide

/-- The reciprocals give the rounded quotients of all scaled canonical coefficients. -/
theorem reciprocal_quotient {u : Nat} (hu : u < 3329) :
    (u * 2 ^ 1 + 1665) * 80635 / 2 ^ 28 = (2 ^ 1 * u + 1664) / 3329 ∧
      (u * 2 ^ 4 + 1665) * 80635 / 2 ^ 28 = (2 ^ 4 * u + 1664) / 3329 ∧
      (u * 2 ^ 5 + 1664) * 40318 / 2 ^ 27 = (2 ^ 5 * u + 1664) / 3329 ∧
      (u * 2 ^ 10 + 1664) * 330282857 / 2 ^ 40 = (2 ^ 10 * u + 1664) / 3329 ∧
      (u * 2 ^ 11 + 1664) * 330282857 / 2 ^ 40 = (2 ^ 11 * u + 1664) / 3329 := by
  refine ⟨?_, ?_, ?_, ?_, ?_⟩ <;> omega

/-- The kept bits of a quotient are those of the scaled coefficient divided by the modulus and rounded. Where the product wraps,
it does so above them. -/
theorem toNat_quotient_mod (d : Width) {u : UInt16} (hu : u.toNat < 3329) :
    (d.quotient u).toNat % 2 ^ d.bits = (2 ^ d.bits * u.toNat + 1664) / 3329 % 2 ^ d.bits := by
  obtain ⟨h1, h4, h5, h10, h11⟩ := reciprocal_quotient hu
  cases d with
  | one =>
    rw [bits, ← h1, ← @Digits.mod_div_mod _ 32 28 1 (by decide)]
    simp [quotient, Nat.shiftRight_eq_div_pow, Nat.shiftLeft_eq]
  | four =>
    rw [bits, ← h4, ← @Digits.mod_div_mod _ 32 28 4 (by decide)]
    simp [quotient, Nat.shiftRight_eq_div_pow, Nat.shiftLeft_eq]
  | five =>
    rw [bits, ← h5, ← @Digits.mod_div_mod _ 32 27 5 (by decide)]
    simp [quotient, Nat.shiftRight_eq_div_pow, Nat.shiftLeft_eq]
  | ten =>
    rw [bits, ← h10, ← @Digits.mod_div_mod _ 64 40 10 (by decide)]
    simp [quotient, Nat.shiftRight_eq_div_pow, Nat.shiftLeft_eq]
  | eleven =>
    rw [bits, ← h11, ← @Digits.mod_div_mod _ 64 40 11 (by decide)]
    simp [quotient, Nat.shiftRight_eq_div_pow, Nat.shiftLeft_eq]

/-- A canonical coefficient is compressed to its multiple by `2 ^ d`, divided by the modulus, rounded and cut to `d` bits. -/
theorem compressCoefficient_spec (d : Width) {u : UInt16} (hu : u.toNat < 3329) :
    ∃ r, d.compressCoefficient u = .ok r ∧ r.toNat = (2 ^ d.bits * u.toNat + 1664) / 3329 % 2 ^ d.bits := by
  have hmask : (UInt16.ofNat (Nat.pow 2 d.bits - 1)).toNat = 2 ^ d.bits - 1 := by cases d <;> rfl
  have hcanonical : u < 3329 := UInt16.lt_iff_toNat_lt.2 hu
  refine ⟨_, by rw [compressCoefficient, ensure, if_pos hcanonical]; rfl, ?_⟩
  rw [UInt16.toNat_and, hmask, Nat.and_two_pow_sub_one_eq_mod, toNat_quotient_mod d hu]

/-- The rounded quotient that a value of `d` bits stands for is canonical. -/
theorem decompressed_lt (d : Width) {y : Nat} (hy : y < 2 ^ d.bits) : (y * 3329 + 2 ^ (d.bits - 1)) / 2 ^ d.bits < 3329 := by
  have hhalf : 2 ^ (d.bits - 1) ≤ 1024 := by cases d <;> decide
  refine Nat.div_lt_of_lt_mul ?_
  generalize 2 ^ d.bits = top at hy ⊢
  omega

/-- A value of `d` bits is the rounded multiple by `2 ^ d` of the rounded quotient that it stands for: the rounding of the quotient
leaves less than half a step of the modulus. -/
theorem rounded_back (d : Width) {y : Nat} (hy : y < 2 ^ d.bits) :
    (2 ^ d.bits * ((y * 3329 + 2 ^ (d.bits - 1)) / 2 ^ d.bits) + 1664) / 3329 % 2 ^ d.bits = y := by
  have htop : 2 ^ d.bits = 2 * 2 ^ (d.bits - 1) := by cases d <;> rfl
  have hhalf : 2 ^ (d.bits - 1) ≤ 1024 := by cases d <;> decide
  have hdiv := Nat.div_add_mod (y * 3329 + 2 ^ (d.bits - 1)) (2 ^ d.bits)
  have hmod := Nat.mod_lt (y * 3329 + 2 ^ (d.bits - 1)) (Nat.two_pow_pos d.bits)
  -- Rounding moves the product by at most `2 ^ (d - 1)`, which is less than half the modulus.
  have hquotient : (2 ^ d.bits * ((y * 3329 + 2 ^ (d.bits - 1)) / 2 ^ d.bits) + 1664) / 3329 = y := by
    refine Nat.div_eq_of_lt_le ?_ ?_
    · omega
    · omega
  rw [hquotient, Nat.mod_eq_of_lt hy]

/-- A value of `d` bits stands for its product with the modulus, divided by `2 ^ d` and rounded. -/
theorem decompressCoefficient_spec {d : Width} {y : UInt16} (hy : y.toNat < 2 ^ d.bits) :
    ∃ r, d.decompressCoefficient y = .ok r ∧ r.toNat = (y.toNat * 3329 + 2 ^ (d.bits - 1)) / 2 ^ d.bits := by
  have hlt := decompressed_lt d hy
  have htop : 2 ^ d.bits ≤ 2048 := by cases d <;> decide
  have hhalf : 2 ^ (d.bits - 1) ≤ 1024 := by cases d <;> decide
  have hwidth : (UInt16.ofNat (Nat.pow 2 d.bits)).toNat = 2 ^ d.bits := by cases d <;> rfl
  have hround : (UInt32.ofNat (Nat.pow 2 (d.bits - 1))).toNat = 2 ^ (d.bits - 1) := by cases d <;> rfl
  have hshift : (UInt32.ofNat d.bits).toNat % 32 = d.bits := by cases d <;> rfl
  have hcheck : y < UInt16.ofNat (Nat.pow 2 d.bits) := by
    rw [UInt16.lt_iff_toNat_lt, hwidth]
    exact hy
  have hfits : y.toNat * 3329 + 2 ^ (d.bits - 1) < 2 ^ 32 := by omega
  refine ⟨_, by rw [decompressCoefficient, ensure, if_pos hcheck]; rfl, ?_⟩
  rw [UInt32.toNat_toUInt16, UInt32.toNat_shiftRight, hshift, UInt32.toNat_add, UInt32.toNat_mul, UInt16.toNat_toUInt32, hround,
    UInt32.toNat_ofNat, Nat.mod_add_mod, Nat.mod_eq_of_lt hfits, Nat.shiftRight_eq_div_pow]
  exact Nat.mod_eq_of_lt (hlt.trans (by decide))

/-- The coefficients that compressed values stand for, digit by digit. -/
theorem decompressedCoefficients_spec (d : Width) (bytes : Bytes) :
    ∃ x, d.decompressedCoefficients bytes = .ok x ∧ ∀ i : Fin 256, (x.get i).toInt =
      ((Digits.digit d.bits (Digits.value 8 (bytes.map UInt8.toNat)) i * 3329 + 2 ^ (d.bits - 1)) / 2 ^ d.bits : Nat) := by
  have hwidth : d.bits ≤ 16 := d.bits_le.trans (by decide)
  obtain ⟨values, hloop, hvalues⟩ := ofFnM_answers fun i : Fin 256 =>
    decompressCoefficient_spec (Digits.get_unpack_lt hwidth bytes i)
  have hlt : ∀ i : Fin 256, (values.get i).toNat < 3329 :=
    fun i => hvalues i ▸ decompressed_lt d (Digits.get_unpack_lt hwidth bytes i)
  have hword : ∀ i : Fin 256, ((values.map UInt16.toInt16).get i).toInt = (values.get i).toNat := by
    intro i
    have := hlt i
    rw [get_map, toInt_toInt16 (by omega)]
  have hcheck : Contract.decompressOutput.require (values.map UInt16.toInt16) = .ok () := by
    refine require_of_canonical rfl ?_
    intro i
    have := hlt i
    rw [hword]
    omega
  refine ⟨values.map UInt16.toInt16, ?_, ?_⟩
  · unfold decompressedCoefficients
    dsimp only
    rw [(Packing.lawful d).read_eq, hloop, ok_bind, hcheck, ok_bind]
    rfl
  · intro i
    rw [hword, hvalues, Digits.toNat_get_unpack hwidth]

/-- A message stands for what the decompression from one bit gives. -/
theorem messageCoefficients_spec (message : Bytes) :
    ∃ x, messageCoefficients message = .ok x ∧ ∀ i : Fin 256, (x.get i).toInt =
      ((Digits.digit 1 (Digits.value 8 (message.map UInt8.toNat)) i * 3329 + 1) / 2 : Nat) := by
  have hvalue : ∀ i : Fin 256, ∃ r : Int16, Word.select 0 1665 ((Digits.unpack 1 message).get i) = .ok r ∧
      r.toInt = ((((Digits.unpack 1 message).get i).toNat * 3329 + 1) / 2 : Nat) ∧ 0 ≤ r.toInt ∧ r.toInt < 3329 := by
    intro i
    have hbit := @Digits.get_unpack_lt 1 (by decide) message i
    obtain ⟨hzero, hone⟩ := Word.select_eq 0 1665
    have hcases : ((Digits.unpack 1 message).get i).toNat = 0 ∨ ((Digits.unpack 1 message).get i).toNat = 1 := by omega
    rcases hcases with hv | hv
    · have hword : (Digits.unpack 1 message).get i = 0 := UInt16.toNat.inj hv
      exact ⟨0, by rw [hword]; exact hzero, by rw [hv]; decide⟩
    · have hword : (Digits.unpack 1 message).get i = 1 := UInt16.toNat.inj hv
      exact ⟨1665, by rw [hword]; exact hone, by rw [hv]; decide⟩
  obtain ⟨values, hloop, hvalues⟩ := ofFnM_answers hvalue
  have hcheck : Contract.messageOutput.require values = .ok () := require_of_canonical rfl fun i => (hvalues i).2
  have hread : Packing.one.read message = Digits.unpack 1 message := (Packing.lawful .one).read_eq message
  refine ⟨values, ?_, ?_⟩
  · unfold messageCoefficients
    dsimp only
    rw [hread, hloop, ok_bind, hcheck, ok_bind]
    rfl
  · intro i
    rw [(hvalues i).1, Digits.toNat_get_unpack (by decide)]

/-- The coefficients that a compressed polynomial of the right length stands for, digit by digit. -/
theorem decompress_spec (d : Width) {bytes : Bytes} (h : bytes.length = d.polynomialBytes) :
    ∃ x, d.decompress bytes = .ok x ∧ ∀ i : Fin 256, (x.get i).toInt =
      ((Digits.digit d.bits (Digits.value 8 (bytes.map UInt8.toNat)) i * 3329 + 2 ^ (d.bits - 1)) / 2 ^ d.bits : Nat) := by
  unfold decompress
  rw [ensure, if_pos h, ok_bind]
  cases d with
  | one => exact messageCoefficients_spec bytes
  | four => exact decompressedCoefficients_spec .four bytes
  | five => exact decompressedCoefficients_spec .five bytes
  | ten => exact decompressedCoefficients_spec .ten bytes
  | eleven => exact decompressedCoefficients_spec .eleven bytes

/-- What is decompressed is canonical. -/
theorem canonical_of_decompress {d : Width} {bytes : Bytes} {x : Coeffs 256} (h : d.decompress bytes = .ok x) : x.Canonical := by
  have hcoefficients (d : Width) (h : d.decompressedCoefficients bytes = .ok x) : x.Canonical := by
    obtain ⟨_, -, h⟩ := bind_eq_ok_iff.1 h
    obtain ⟨_, hcheck, h⟩ := bind_eq_ok_iff.1 h
    exact Except.ok.inj h ▸ (holds_iff_canonical rfl).1 (Contract.require_eq_ok_iff.1 hcheck)
  obtain ⟨_, -, h⟩ := bind_eq_ok_iff.1 h
  cases d with
  | one =>
    obtain ⟨_, -, h⟩ := bind_eq_ok_iff.1 h
    obtain ⟨_, hcheck, h⟩ := bind_eq_ok_iff.1 h
    exact Except.ok.inj h ▸ (holds_iff_canonical rfl).1 (Contract.require_eq_ok_iff.1 hcheck)
  | four => exact hcoefficients .four h
  | five => exact hcoefficients .five h
  | ten => exact hcoefficients .ten h
  | eleven => exact hcoefficients .eleven h

/-- Canonical coefficients have compressed values. -/
theorem compressed_values (d : Width) {x : Coeffs 256} (hx : x.Canonical) :
    ∃ values : Vector UInt16 256,
      (Vector.ofFnM fun i : Fin 256 => d.compressCoefficient (x.get i).toUInt16) = .ok values ∧
        ∀ i : Fin 256, ((values.get i).toNat : Int) = (2 ^ d.bits * (x.get i).toInt + 1664) / 3329 % 2 ^ d.bits := by
  have hvalue : ∀ i : Fin 256, ∃ r, d.compressCoefficient (x.get i).toUInt16 = .ok r ∧
      (r.toNat : Int) = (2 ^ d.bits * (x.get i).toInt + 1664) / 3329 % 2 ^ d.bits := by
    intro i
    obtain ⟨hlo, hhi⟩ := hx i
    have hword := toNat_toUInt16 hlo
    obtain ⟨r, hok, hr⟩ := d.compressCoefficient_spec (u := (x.get i).toUInt16) (by omega)
    refine ⟨r, hok, ?_⟩
    rw [hr, ← hword]
    norm_cast
  exact ofFnM_answers hvalue

/-- Compressed values have no more bits than the width. -/
theorem compressed_lt (d : Width) {values : Vector UInt16 256} {x : Coeffs 256}
    (h : ∀ i : Fin 256, ((values.get i).toNat : Int) = (2 ^ d.bits * (x.get i).toInt + 1664) / 3329 % 2 ^ d.bits) (i : Fin 256) :
    (values.get i).toNat < 2 ^ d.bits := by
  have htop : (0 : Int) < 2 ^ d.bits := pow_pos (by decide) d.bits
  have hmod := Int.emod_lt_of_pos ((2 ^ d.bits * (x.get i).toInt + 1664) / 3329) htop
  rw [← h] at hmod
  exact_mod_cast hmod

/-- Of the buffer that a compressed form is written over only the length matters. -/
theorem compress_buffer (d : Width) (x : Coeffs 256) {buffer buffer' : Bytes} (h : buffer.length = buffer'.length) :
    d.compress x buffer = d.compress x buffer' := by
  unfold compress
  rw [h]

/-- The compressed form of canonical coefficients. -/
theorem compress_spec (d : Width) {x : Coeffs 256} (hx : x.Canonical) {buffer : Bytes}
    (hbuffer : buffer.length = d.polynomialBytes) :
    ∃ values : Vector UInt16 256, d.compress x buffer = .ok (Digits.pack d.bits values).toList ∧
      ∀ i : Fin 256, ((values.get i).toNat : Int) = (2 ^ d.bits * (x.get i).toInt + 1664) / 3329 % 2 ^ d.bits := by
  obtain ⟨values, hok, hvalues⟩ := d.compressed_values hx
  refine ⟨values, ?_, hvalues⟩
  unfold compress
  rw [ensure, if_pos hbuffer, ok_bind, require_of_canonical rfl hx, ok_bind, hok, ok_bind,
    (Packing.lawful d).write_eq (d.compressed_lt hvalues)]
  rfl

end Width

/-! ## The uncompressed encoding -/

namespace TwelveBit

/-- Signed residues have unsigned forms, the remainders by the modulus. -/
theorem encode_residues {x : Coeffs 256} (hx : Contract.encodeInput.Holds x) :
    ∃ residues : Vector Int16 256, (Vector.ofFnM fun i : Fin 256 => liftSign (x.get i)) = .ok residues ∧
      ∀ i : Fin 256, (residues.get i).toInt = (x.get i).toInt % 3329 := by
  have hlift : ∀ i : Fin 256, ∃ r, liftSign (x.get i) = .ok r ∧ r.toInt = (x.get i).toInt % 3329 :=
    fun i => ⟨_, liftSign_spec (hx i)⟩
  exact ofFnM_answers hlift

/-- Signed residues are encoded to a given string exactly if its fields are their remainders. -/
theorem encode_eq_ok_iff {x : Coeffs 256} (hx : Contract.encodeInput.Holds x) {bytes : Vector UInt8 384} :
    encode x = .ok bytes ↔ ∀ i : Fin 256, (Digits.field 12 bytes.toList i : Int) = (x.get i).toInt % 3329 := by
  obtain ⟨residues, hresidues, hvalues⟩ := encode_residues hx
  have hword : ∀ i : Fin 256, (((residues.map Int16.toUInt16).get i).toNat : Int) = (x.get i).toInt % 3329 := by
    intro i
    have hvalue := hvalues i
    rw [get_map, toNat_toUInt16 (by omega), hvalue]
  have hlt : ∀ i : Fin 256, ((residues.map Int16.toUInt16).get i).toNat < 2 ^ 12 := by
    intro i
    have hvalue := hword i
    omega
  have hencode : encode x = .ok (Digits.pack 12 (residues.map Int16.toUInt16)) := by
    have hcheck : Contract.encodeInput.require x = .ok () := Contract.require_eq_ok_iff.2 hx
    unfold encode
    rw [hcheck, ok_bind, hresidues, ok_bind, Packing.lawful_twelve.write_eq hlt]
    rfl
  have hlists : encode x = .ok bytes ↔ (Digits.pack 12 (residues.map Int16.toUInt16)).toList = bytes.toList := by
    rw [hencode, Except.ok.injEq]
    exact Vector.toList_inj.symm
  rw [hlists, Digits.pack_eq_iff hlt bytes.length_toList]
  refine forall_congr' fun i => ?_
  rw [← hword, Int.ofNat_inj]

/-- An encoding of the right length always stands for coefficients, its fields of twelve bits. -/
theorem decode_spec (bytes : Vector UInt8 384) :
    ∃ x, decode bytes = .ok x ∧ ∀ i : Fin 256, (x.get i).toInt = Digits.field 12 bytes.toList i := by
  have hvalue (i : Fin 256) :
      (((Digits.unpack 12 bytes.toList).map UInt16.toInt16).get i).toInt = Digits.field 12 bytes.toList i := by
    have hlt := @Digits.get_unpack_lt 12 (by decide) bytes.toList i
    rw [get_map, toInt_toInt16 (by omega), Digits.toNat_get_unpack (by decide), Digits.field_eq_digit]
  have hcheck : Contract.decodeOutput.require ((Digits.unpack 12 bytes.toList).map UInt16.toInt16) = .ok () := by
    refine Contract.require_eq_ok_iff.2 ?_
    intro i
    have hlt := Digits.field_lt 12 bytes.toList i
    unfold Contract.range Range.Holds
    dsimp only
    rw [hvalue]
    omega
  refine ⟨(Digits.unpack 12 bytes.toList).map UInt16.toInt16, ?_, hvalue⟩
  unfold decode
  dsimp only
  rw [Packing.lawful_twelve.read_eq, hcheck, ok_bind]
  rfl

end TwelveBit

end ModuleLattice
