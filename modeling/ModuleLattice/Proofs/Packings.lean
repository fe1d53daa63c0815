import ModuleLattice.Codec.Encoding
import ModuleLattice.Proofs.Digits
import Mathlib.Data.Fin.Basic

/-!
# Packings as changes of base

The values of a group and the bytes they fill make up the same number, the values as digits of their own size and the bytes as
digits of eight bits (`Lawful`). For every number of bits this comes down to the shifts of its group: the parts a byte or a value
is put together from do not overlap, so they add up. All groups of a polynomial are then digits of one number, and what is
written or read is a change of base (`Lawful.write_eq`, `Lawful.read_eq`). No later proof looks into a group.
-/

namespace ModuleLattice.Packing

open Digits

variable {bits : Nat}

/-! ## Parts of words -/

/-- A part that ends where the next one begins adds up with it; what the next one shifts beyond the word is lost. -/
theorem or_shiftLeft_mod {a k n : Nat} (h : a < 2 ^ k) (hk : k ≤ n) (b : Nat) :
    a ||| b <<< k % 2 ^ n = a + b % 2 ^ (n - k) * 2 ^ k := by
  have hsplit : b <<< k % 2 ^ n = (b % 2 ^ (n - k)) <<< k := by
    rw [Nat.shiftLeft_eq, Nat.shiftLeft_eq, ← Nat.mul_mod_mul_right, ← pow_add, Nat.sub_add_cancel hk]
  rw [hsplit, Nat.or_comm, ← Nat.shiftLeft_add_eq_or_of_lt h, Nat.shiftLeft_eq, Nat.add_comm]

theorem or_shiftLeft_byte {a k : Nat} (h : a < 2 ^ k) (hk : k ≤ 8) (b : Nat) :
    a ||| b <<< k % 256 = a + b % 2 ^ (8 - k) * 2 ^ k := or_shiftLeft_mod h hk b

theorem or_shiftLeft_word {a k : Nat} (h : a < 2 ^ k) (hk : k ≤ 16) (b : Nat) :
    a ||| b <<< k % 65536 = a + b % 2 ^ (16 - k) * 2 ^ k := or_shiftLeft_mod h hk b

/-- A mask of low bits leaves a remainder. -/
theorem and_mask (n : Nat) :
    n &&& 1 = n % 2 ∧ n &&& 3 = n % 4 ∧ n &&& 7 = n % 8 ∧ n &&& 15 = n % 16 ∧ n &&& 31 = n % 32 ∧ n &&& 63 = n % 64 ∧
      n &&& 127 = n % 128 :=
  ⟨Nat.and_two_pow_sub_one_eq_mod n 1, Nat.and_two_pow_sub_one_eq_mod n 2, Nat.and_two_pow_sub_one_eq_mod n 3,
    Nat.and_two_pow_sub_one_eq_mod n 4, Nat.and_two_pow_sub_one_eq_mod n 5, Nat.and_two_pow_sub_one_eq_mod n 6,
    Nat.and_two_pow_sub_one_eq_mod n 7⟩

/-! ## The entries of a group -/

/-- The places of the groups, one by one. -/
theorem finRange_places :
    List.finRange 1 = [Fin.last 0] ∧ List.finRange 2 = [0, 1] ∧ List.finRange 3 = [0, 1, 2] ∧ List.finRange 4 = [0, 1, 2, 3] ∧
      List.finRange 5 = [0, 1, 2, 3, 4] ∧ List.finRange 8 = [0, 1, 2, 3, 4, 5, 6, 7] ∧
      List.finRange 11 = [0, 1, 2, 3, 4, 5, 6, 7, 8, 9, 10] := ⟨rfl, rfl, rfl, rfl, rfl, rfl, rfl⟩

/-- The entries of a vector, place by place. -/
theorem toList_eq_map {α : Type} {n : Nat} (x : Vector α n) : x.toList = (List.finRange n).map fun i => x.get i := by
  refine List.ext_getElem (by simp) ?_
  intro i hi hi'
  rw [List.getElem_map, List.getElem_finRange, Vector.getElem_toList]
  rfl

/-- The values and the bytes of a group make up the same number, and unpacked values have no more bits than they should. -/
structure Lawful (p : Packing bits) : Prop where
  pack (s : Vector UInt16 p.groupValues) : (∀ d ∈ s.toList.map UInt16.toNat, d < 2 ^ bits) →
    value 8 ((p.pack s).toList.map UInt8.toNat) = value bits (s.toList.map UInt16.toNat)
  unpack (b : Vector UInt8 p.groupBytes) :
    value bits ((p.unpack b).toList.map UInt16.toNat) = value 8 (b.toList.map UInt8.toNat) ∧
      ∀ d ∈ (p.unpack b).toList.map UInt16.toNat, d < 2 ^ bits

/-! ## Group by group

The words of a group become numbers, the parts of a byte or of a value become summands, and what is left is linear in the values
or the bytes of the group.
-/

theorem pack_one (s : Vector UInt16 8) (hs : ∀ d ∈ s.toList.map UInt16.toNat, d < 2 ^ 1) :
    value 8 ((one.pack s).toList.map UInt8.toNat) = value 1 (s.toList.map UInt16.toNat) := by
  rw [toList_eq_map s] at hs ⊢
  simp only [finRange_places, List.map_cons, List.map_nil, List.forall_mem_cons, Nat.reducePow] at hs
  simp (disch := omega) only [one, List.foldl_cons, List.foldl_nil, finRange_places, Vector.toList_mk, List.map_cons,
    List.map_nil, value_cons, value_nil, UInt8.toNat_or, UInt8.toNat_shiftLeft, UInt16.toNat_toUInt8, UInt8.toNat_ofNat',
    Fin.coe_ofNat_eq_mod, UInt8.reduceToNat, Nat.reduceMod, Nat.reducePow, Nat.reduceSub, or_shiftLeft_byte]
  omega

theorem unpack_one (b : Vector UInt8 1) :
    value 1 ((one.unpack b).toList.map UInt16.toNat) = value 8 (b.toList.map UInt8.toNat) ∧
      ∀ d ∈ (one.unpack b).toList.map UInt16.toNat, d < 2 ^ 1 := by
  have hb := bytes_lt b.toList
  rw [toList_eq_map b] at hb ⊢
  have hbits : (one.unpack b).toList = (List.finRange 8).map fun i => (one.unpack b).get i := toList_eq_map _
  rw [hbits]
  simp only [finRange_places, List.map_cons, List.map_nil, List.forall_mem_cons, Nat.reducePow] at hb
  simp (disch := omega) only [one, get_ofFn, finRange_places, List.map_cons, List.map_nil, List.forall_mem_cons, value_cons,
    value_nil, UInt8.toNat_toUInt16, UInt8.toNat_and, UInt8.toNat_shiftRight, UInt8.toNat_ofNat', Fin.coe_ofNat_eq_mod,
    UInt8.reduceToNat, Nat.reduceMod, Nat.reducePow, Nat.shiftRight_eq_div_pow, and_mask, List.not_mem_nil, false_imp_iff,
    implies_true, and_true]
  omega

theorem pack_four (s : Vector UInt16 2) (hs : ∀ d ∈ s.toList.map UInt16.toNat, d < 2 ^ 4) :
    value 8 ((four.pack s).toList.map UInt8.toNat) = value 4 (s.toList.map UInt16.toNat) := by
  rw [toList_eq_map s] at hs ⊢
  simp only [finRange_places, List.map_cons, List.map_nil, List.forall_mem_cons, Nat.reducePow] at hs
  simp (disch := omega) only [four, finRange_places, Vector.toList_mk, List.map_cons, List.map_nil, value_cons, value_nil,
    UInt8.toNat_or, UInt8.toNat_shiftLeft, UInt16.toNat_toUInt8, UInt8.reduceToNat, Nat.reduceMod, Nat.reducePow, Nat.reduceSub,
    or_shiftLeft_byte]
  omega

theorem unpack_four (b : Vector UInt8 1) :
    value 4 ((four.unpack b).toList.map UInt16.toNat) = value 8 (b.toList.map UInt8.toNat) ∧
      ∀ d ∈ (four.unpack b).toList.map UInt16.toNat, d < 2 ^ 4 := by
  have hb := bytes_lt b.toList
  rw [toList_eq_map b] at hb ⊢
  simp only [finRange_places, List.map_cons, List.map_nil, List.forall_mem_cons, Nat.reducePow] at hb
  simp (disch := omega) only [four, finRange_places, Vector.toList_mk, Vector.toList_map, List.map_cons, List.map_nil,
    List.forall_mem_cons, value_cons, value_nil, UInt8.toNat_toUInt16, UInt8.toNat_and, UInt8.toNat_shiftRight,
    UInt8.reduceToNat, Nat.reduceMod, Nat.reducePow, Nat.shiftRight_eq_div_pow, and_mask, List.not_mem_nil, false_imp_iff,
    implies_true, and_true]
  omega

theorem pack_five (s : Vector UInt16 8) (hs : ∀ d ∈ s.toList.map UInt16.toNat, d < 2 ^ 5) :
    value 8 ((five.pack s).toList.map UInt8.toNat) = value 5 (s.toList.map UInt16.toNat) := by
  rw [toList_eq_map s] at hs ⊢
  simp only [finRange_places, List.map_cons, List.map_nil, List.forall_mem_cons, Nat.reducePow] at hs
  simp (disch := omega) only [five, finRange_places, Vector.toList_mk, List.map_cons, List.map_nil, value_cons, value_nil,
    get_map, UInt8.toNat_or, UInt8.toNat_shiftLeft, UInt8.toNat_shiftRight, UInt16.toNat_toUInt8, UInt8.reduceToNat,
    Nat.reduceMod, Nat.reducePow, Nat.reduceSub, Nat.shiftRight_eq_div_pow, or_shiftLeft_byte]
  omega

theorem unpack_five (b : Vector UInt8 5) :
    value 5 ((five.unpack b).toList.map UInt16.toNat) = value 8 (b.toList.map UInt8.toNat) ∧
      ∀ d ∈ (five.unpack b).toList.map UInt16.toNat, d < 2 ^ 5 := by
  have hb := bytes_lt b.toList
  rw [toList_eq_map b] at hb ⊢
  simp only [finRange_places, List.map_cons, List.map_nil, List.forall_mem_cons, Nat.reducePow] at hb
  simp (disch := omega) only [five, finRange_places, Vector.toList_mk, Vector.toList_map, List.map_cons, List.map_nil,
    List.forall_mem_cons, value_cons, value_nil, UInt8.toNat_toUInt16, UInt8.toNat_or, UInt8.toNat_and, UInt8.toNat_shiftLeft,
    UInt8.toNat_shiftRight, UInt8.reduceToNat, Nat.reduceMod, Nat.reducePow, Nat.reduceSub, Nat.shiftRight_eq_div_pow, and_mask,
    or_shiftLeft_byte, List.not_mem_nil, false_imp_iff, implies_true, and_true]
  omega

theorem pack_ten (s : Vector UInt16 4) (hs : ∀ d ∈ s.toList.map UInt16.toNat, d < 2 ^ 10) :
    value 8 ((ten.pack s).toList.map UInt8.toNat) = value 10 (s.toList.map UInt16.toNat) := by
  rw [toList_eq_map s] at hs ⊢
  simp only [finRange_places, List.map_cons, List.map_nil, List.forall_mem_cons, Nat.reducePow] at hs
  simp (disch := omega) only [ten, finRange_places, Vector.toList_mk, Vector.toList_map, List.map_cons, List.map_nil,
    value_cons, value_nil, UInt16.toNat_or, UInt16.toNat_shiftLeft, UInt16.toNat_shiftRight, UInt16.toNat_toUInt8,
    UInt16.reduceToNat, Nat.reduceMod, Nat.reducePow, Nat.reduceSub, Nat.shiftRight_eq_div_pow, or_shiftLeft_word]
  omega

theorem unpack_ten (b : Vector UInt8 5) :
    value 10 ((ten.unpack b).toList.map UInt16.toNat) = value 8 (b.toList.map UInt8.toNat) ∧
      ∀ d ∈ (ten.unpack b).toList.map UInt16.toNat, d < 2 ^ 10 := by
  have hb := bytes_lt b.toList
  rw [toList_eq_map b] at hb ⊢
  simp only [finRange_places, List.map_cons, List.map_nil, List.forall_mem_cons, Nat.reducePow] at hb
  simp (disch := omega) only [ten, finRange_places, Vector.toList_mk, List.map_cons, List.map_nil, List.forall_mem_cons,
    value_cons, value_nil, get_map, UInt8.toNat_toUInt16, UInt16.toNat_or, UInt16.toNat_and, UInt16.toNat_shiftLeft,
    UInt16.toNat_shiftRight, UInt16.reduceToNat, Nat.reduceMod, Nat.reducePow, Nat.reduceSub, Nat.shiftRight_eq_div_pow,
    and_mask, or_shiftLeft_word, List.not_mem_nil, false_imp_iff, implies_true, and_true]
  omega

theorem pack_eleven (s : Vector UInt16 8) (hs : ∀ d ∈ s.toList.map UInt16.toNat, d < 2 ^ 11) :
    value 8 ((eleven.pack s).toList.map UInt8.toNat) = value 11 (s.toList.map UInt16.toNat) := by
  rw [toList_eq_map s] at hs ⊢
  simp only [finRange_places, List.map_cons, List.map_nil, List.forall_mem_cons, Nat.reducePow] at hs
  simp (disch := omega) only [eleven, finRange_places, Vector.toList_mk, Vector.toList_map, List.map_cons, List.map_nil,
    value_cons, value_nil, UInt16.toNat_or, UInt16.toNat_shiftLeft, UInt16.toNat_shiftRight, UInt16.toNat_toUInt8,
    UInt16.reduceToNat, Nat.reduceMod, Nat.reducePow, Nat.reduceSub, Nat.shiftRight_eq_div_pow, or_shiftLeft_word]
  omega

theorem unpack_eleven (b : Vector UInt8 11) :
    value 11 ((eleven.unpack b).toList.map UInt16.toNat) = value 8 (b.toList.map UInt8.toNat) ∧
      ∀ d ∈ (eleven.unpack b).toList.map UInt16.toNat, d < 2 ^ 11 := by
  have hb := bytes_lt b.toList
  rw [toList_eq_map b] at hb ⊢
  simp only [finRange_places, List.map_cons, List.map_nil, List.forall_mem_cons, Nat.reducePow] at hb
  simp (disch := omega) only [eleven, finRange_places, Vector.toList_mk, List.map_cons, List.map_nil, List.forall_mem_cons,
    value_cons, value_nil, get_map, UInt8.toNat_toUInt16, UInt16.toNat_or, UInt16.toNat_and, UInt16.toNat_shiftLeft,
    UInt16.toNat_shiftRight, UInt16.reduceToNat, Nat.reduceMod, Nat.reducePow, Nat.reduceSub, Nat.shiftRight_eq_div_pow,
    and_mask, or_shiftLeft_word, List.not_mem_nil, false_imp_iff, implies_true, and_true]
  omega

theorem pack_twelve (s : Vector UInt16 2) (hs : ∀ d ∈ s.toList.map UInt16.toNat, d < 2 ^ 12) :
    value 8 ((twelve.pack s).toList.map UInt8.toNat) = value 12 (s.toList.map UInt16.toNat) := by
  rw [toList_eq_map s] at hs ⊢
  simp only [finRange_places, List.map_cons, List.map_nil, List.forall_mem_cons, Nat.reducePow] at hs
  simp (disch := omega) only [twelve, finRange_places, Vector.toList_mk, Vector.toList_map, List.map_cons, List.map_nil,
    value_cons, value_nil, UInt16.toNat_or, UInt16.toNat_shiftLeft, UInt16.toNat_shiftRight, UInt16.toNat_toUInt8,
    UInt16.reduceToNat, Nat.reduceMod, Nat.reducePow, Nat.reduceSub, Nat.shiftRight_eq_div_pow, or_shiftLeft_word]
  omega

theorem unpack_twelve (b : Vector UInt8 3) :
    value 12 ((twelve.unpack b).toList.map UInt16.toNat) = value 8 (b.toList.map UInt8.toNat) ∧
      ∀ d ∈ (twelve.unpack b).toList.map UInt16.toNat, d < 2 ^ 12 := by
  have hb := bytes_lt b.toList
  rw [toList_eq_map b] at hb ⊢
  simp only [finRange_places, List.map_cons, List.map_nil, List.forall_mem_cons, Nat.reducePow] at hb
  simp (disch := omega) only [twelve, finRange_places, Vector.toList_mk, List.map_cons, List.map_nil, List.forall_mem_cons,
    value_cons, value_nil, get_map, UInt8.toNat_toUInt16, UInt16.toNat_or, UInt16.toNat_and, UInt16.toNat_shiftLeft,
    UInt16.toNat_shiftRight, UInt16.reduceToNat, Nat.reduceMod, Nat.reducePow, Nat.reduceSub, Nat.shiftRight_eq_div_pow,
    and_mask, or_shiftLeft_word, List.not_mem_nil, false_imp_iff, implies_true, and_true]
  omega

/-- The packings of the compressed encodings. -/
theorem lawful (d : Width) : d.packing.Lawful :=
  match d with
  | .one => ⟨pack_one, unpack_one⟩
  | .four => ⟨pack_four, unpack_four⟩
  | .five => ⟨pack_five, unpack_five⟩
  | .ten => ⟨pack_ten, unpack_ten⟩
  | .eleven => ⟨pack_eleven, unpack_eleven⟩

/-- The packing of the uncompressed encoding. -/
theorem lawful_twelve : twelve.Lawful := ⟨pack_twelve, unpack_twelve⟩

/-! ## All groups -/

/-- A group of values has as many bits as its bytes. -/
theorem group_bits (p : Packing bits) : 8 * p.groupBytes = bits * p.groupValues := by
  have hvalues := p.values_cover
  have hbytes := p.bytes_cover
  have hpos : 0 < p.groups := Nat.pos_of_ne_zero fun h => by simp [h] at hvalues
  refine Nat.eq_of_mul_eq_mul_left hpos ?_
  calc p.groups * (8 * p.groupBytes) = 8 * (p.groups * p.groupBytes) := by ring
    _ = bits * 256 := by rw [← hbytes]; ring
    _ = bits * (p.groups * p.groupValues) := by rw [← hvalues]
    _ = p.groups * (bits * p.groupValues) := by ring

/-- The values of one group are the members of a group of digits. -/
theorem toNat_block (p : Packing bits) {values : Vector UInt16 256} (hv : ∀ i, (values.get i).toNat < 2 ^ bits)
    (g : Fin p.groups) :
    (block p.groups p.groupValues (values.cast p.values_cover) g).toList.map UInt16.toNat =
      group bits (value bits (values.toList.map UInt16.toNat)) p.groupValues g := by
  refine List.ext_getElem (by simp [group]) ?_
  intro i hi _
  have hi : i < p.groupValues := by simpa using hi
  have hplace : g.val * p.groupValues + i < 256 := p.values_cover ▸ block_index_lt g.isLt hi
  simp only [group, List.getElem_map, List.getElem_range]
  rw [digit_value (digits_lt hv), List.getD_eq_getElem _ _ (by simpa using hplace)]
  simp [block]

/-- The bytes of one group are the members of a group of bytes. -/
theorem toNat_groupAt (p : Packing bits) (bytes : Bytes) (g : Nat) :
    (p.groupAt bytes g).toList.map UInt8.toNat = group 8 (value 8 (bytes.map UInt8.toNat)) p.groupBytes g := by
  refine List.ext_getElem (by simp [group]) ?_
  intro j hj _
  simp only [group, List.getElem_map, List.getElem_range]
  rw [digit_value (bytes_lt bytes), ← UInt8.toNat_zero, List.getD_map]
  simp [groupAt]

/-- A member of a packed group of values is a byte of the number the values make up. -/
theorem Lawful.toNat_pack {p : Packing bits} (h : p.Lawful) {values : Vector UInt16 256} (hv : ∀ i, (values.get i).toNat < 2 ^ bits)
    (g : Fin p.groups) {j : Nat} (hj : j < p.groupBytes) :
    (p.pack (block p.groups p.groupValues (values.cast p.values_cover) g))[j].toNat =
      digit 8 (value bits (values.toList.map UInt16.toNat)) (g * p.groupBytes + j) := by
  have hblock := p.toNat_block hv g
  have hvalue := h.pack _ (hblock ▸ group_lt bits _ _ g)
  rw [hblock, ← digit_eq_value, ← p.group_bits] at hvalue
  have hbyte := congrArg (digit 8 · j) hvalue
  rw [digit_digit 8 _ hj, digit_value (bytes_lt _), List.getD_eq_getElem _ _ (by simpa using hj)] at hbyte
  simpa using hbyte

/-- A member of an unpacked group of bytes is a digit of the number the bytes make up. -/
theorem Lawful.toNat_unpack {p : Packing bits} (h : p.Lawful) (bytes : Bytes) (g : Nat) {i : Nat} (hi : i < p.groupValues) :
    (p.unpack (p.groupAt bytes g))[i].toNat = digit bits (value 8 (bytes.map UInt8.toNat)) (g * p.groupValues + i) := by
  obtain ⟨hvalue, hlt⟩ := h.unpack (p.groupAt bytes g)
  rw [p.toNat_groupAt, ← digit_eq_value, p.group_bits] at hvalue
  have hdigit := congrArg (digit bits · i) hvalue
  rw [digit_digit bits _ hi, digit_value hlt, List.getD_eq_getElem _ _ (by simpa using hi)] at hdigit
  simpa using hdigit

/-- Written values are the digits of a number written as bytes. -/
theorem Lawful.write_eq {p : Packing bits} (h : p.Lawful) {values : Vector UInt16 256} (hv : ∀ i, (values.get i).toNat < 2 ^ bits) :
    p.write values = Digits.pack bits values := by
  ext j hj
  have hpos : 0 < p.groupBytes := by
    have := p.bytes_cover
    exact Nat.pos_of_ne_zero fun h => by rw [h] at this; omega
  have hbyte := h.toNat_pack hv ⟨j / p.groupBytes, Nat.div_lt_of_lt_mul (Nat.mul_comm _ _ ▸ p.bytes_cover ▸ hj)⟩ (Nat.mod_lt j hpos)
  dsimp only at hbyte
  rw [Nat.div_add_mod'] at hbyte
  simp only [write, Digits.pack, Vector.getElem_cast, Vector.getElem_flatten, Vector.getElem_ofFn, ← hbyte, UInt8.ofNat_toNat]

/-- Read values are the digits of the number that the bytes make up. -/
theorem Lawful.read_eq {p : Packing bits} (h : p.Lawful) (bytes : Bytes) : p.read bytes = Digits.unpack bits bytes := by
  ext i hi
  have hpos : 0 < p.groupValues := by
    have := p.values_cover
    exact Nat.pos_of_ne_zero fun h => by rw [h] at this; omega
  have hdigit := h.toNat_unpack bytes (i / p.groupValues) (Nat.mod_lt i hpos)
  rw [Nat.div_add_mod'] at hdigit
  simp only [read, Digits.unpack, Vector.getElem_cast, Vector.getElem_flatten, Vector.getElem_ofFn, ← hdigit, UInt16.ofNat_toNat]

end ModuleLattice.Packing
