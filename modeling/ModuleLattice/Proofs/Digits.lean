import ModuleLattice.Blocks
import ModuleLattice.Word
import Mathlib.Data.List.GetD
import Mathlib.Tactic.Ring

/-!
# Numbers and their digits

A number is read from digits and taken apart into digits again. The two directions undo each other: the digits of a number
read from digits are those digits, with zeros behind them, and a number is determined by as many digits as it has.

Writing digits of one size as bytes is a change of base on the number they make up: `pack` and `unpack` are the two directions,
and all packings of the library are shown to agree with them. A group of digits is a digit of the same number in a larger base, so
the change can be made group by group. The bytes that digits are packed into have the bits of the number.
-/

namespace ModuleLattice.Digits

/-- Digit `i` of a number, in digits of `bits` bits. -/
def digit (bits n i : Nat) : Nat := n / Nat.pow 2 (bits * i) % Nat.pow 2 bits

/-- 256 digits of `bits` bits written as bytes. -/
def pack (bits : Nat) (digits : Vector UInt16 256) : Vector UInt8 (32 * bits) :=
  let n := value bits (digits.toList.map UInt16.toNat)
  Vector.ofFn fun j => UInt8.ofNat (digit 8 n j.val)

/-- 256 digits of `bits` bits read from bytes. -/
def unpack (bits : Nat) (bytes : Bytes) : Vector UInt16 256 :=
  let n := value 8 (bytes.map UInt8.toNat)
  Vector.ofFn fun i => UInt16.ofNat (digit bits n i.val)

variable {bits : Nat}

theorem value_nil (bits : Nat) : value bits [] = 0 := rfl

theorem value_cons (bits d : Nat) (digits : List Nat) : value bits (d :: digits) = d + 2 ^ bits * value bits digits := rfl

theorem digit_zero (bits n : Nat) : digit bits n 0 = n % 2 ^ bits := by
  rw [digit, Nat.mul_zero, Nat.pow_eq, Nat.pow_eq, pow_zero, Nat.div_one]

/-- A digit is the next lower digit of the number without its lowest one. -/
theorem digit_succ (bits n i : Nat) : digit bits n (i + 1) = digit bits (n / 2 ^ bits) i := by
  have hpow : 2 ^ (bits * (i + 1)) = 2 ^ bits * 2 ^ (bits * i) := by
    rw [Nat.mul_succ, Nat.add_comm, pow_add]
  rw [digit, digit, Nat.pow_eq, Nat.pow_eq, Nat.pow_eq, hpow, Nat.div_div_eq_div_mul]

theorem digit_lt (bits n i : Nat) : digit bits n i < 2 ^ bits := Nat.mod_lt _ (Nat.two_pow_pos bits)

/-- The digits of a number that is read from digits. -/
theorem digit_value {digits : List Nat} (h : ∀ d ∈ digits, d < 2 ^ bits) (i : Nat) :
    digit bits (value bits digits) i = digits.getD i 0 := by
  induction digits generalizing i with
  | nil => simp [digit, value]
  | cons d digits ih =>
    have hd : d < 2 ^ bits := h d List.mem_cons_self
    rw [value_cons]
    cases i with
    | zero => rw [digit_zero, Nat.add_mul_mod_self_left, Nat.mod_eq_of_lt hd, List.getD_cons_zero]
    | succ i =>
      rw [digit_succ, Nat.add_mul_div_left _ _ (Nat.two_pow_pos bits), Nat.div_eq_of_lt hd, Nat.zero_add, List.getD_cons_succ]
      exact ih (fun e he => h e (List.mem_cons_of_mem d he)) i

/-- A digit moved up `place` places is the only digit of the number that is not zero. -/
theorem digit_shift {d : Nat} (hd : d < 2 ^ bits) (place i : Nat) :
    digit bits (d * 2 ^ (bits * place)) i = if i = place then d else 0 := by
  induction place generalizing i with
  | zero =>
    rw [Nat.mul_zero, pow_zero, Nat.mul_one]
    cases i with
    | zero => rw [digit_zero, Nat.mod_eq_of_lt hd, if_pos rfl]
    | succ i => rw [digit_succ, Nat.div_eq_of_lt hd, if_neg (Nat.succ_ne_zero i), digit, Nat.zero_div, Nat.zero_mod]
  | succ place ih =>
    have hmul : d * 2 ^ (bits * (place + 1)) = 2 ^ bits * (d * 2 ^ (bits * place)) := by
      rw [Nat.mul_succ, pow_add]
      ring
    rw [hmul]
    cases i with
    | zero => rw [digit_zero, Nat.mul_mod_right, if_neg (Nat.succ_ne_zero place).symm]
    | succ i =>
      rw [digit_succ, Nat.mul_div_cancel_left _ (Nat.two_pow_pos bits), ih]
      simp only [Nat.succ_inj]

/-- A number read from digits is as long as they are. -/
theorem value_lt {digits : List Nat} (h : ∀ d ∈ digits, d < 2 ^ bits) : value bits digits < 2 ^ (bits * digits.length) := by
  induction digits with
  | nil => simp [value]
  | cons d digits ih =>
    have hd : d < 2 ^ bits := h d List.mem_cons_self
    have hrest := ih fun e he => h e (List.mem_cons_of_mem d he)
    rw [value_cons, List.length_cons, Nat.mul_succ, pow_add]
    calc d + 2 ^ bits * value bits digits < 2 ^ bits * (value bits digits + 1) := by rw [Nat.mul_succ]; omega
      _ ≤ 2 ^ bits * 2 ^ (bits * digits.length) := Nat.mul_le_mul_left _ hrest
      _ = 2 ^ (bits * digits.length) * 2 ^ bits := Nat.mul_comm _ _

/-- Two numbers of at most `count` digits are the same if their digits are. -/
theorem eq_of_digits {count n m : Nat} (hn : n < 2 ^ (bits * count)) (hm : m < 2 ^ (bits * count))
    (h : ∀ i < count, digit bits n i = digit bits m i) : n = m := by
  induction count generalizing n m with
  | zero =>
    rw [Nat.mul_zero, pow_zero] at hn hm
    omega
  | succ count ih =>
    rw [Nat.mul_succ, pow_add] at hn hm
    have hlow : n % 2 ^ bits = m % 2 ^ bits := by
      have := h 0 (Nat.succ_pos count)
      rwa [digit_zero, digit_zero] at this
    have hhigh : n / 2 ^ bits = m / 2 ^ bits := by
      refine ih (Nat.div_lt_of_lt_mul (Nat.mul_comm _ _ ▸ hn)) (Nat.div_lt_of_lt_mul (Nat.mul_comm _ _ ▸ hm)) ?_
      intro i hi
      rw [← digit_succ, ← digit_succ]
      exact h (i + 1) (Nat.succ_lt_succ hi)
    rw [← Nat.div_add_mod n (2 ^ bits), ← Nat.div_add_mod m (2 ^ bits), hlow, hhigh]

/-- Digits in equal number that make up the same number are the same. -/
theorem eq_of_value {ds es : List Nat} (hds : ∀ d ∈ ds, d < 2 ^ bits) (hes : ∀ d ∈ es, d < 2 ^ bits)
    (hlength : ds.length = es.length) (h : value bits ds = value bits es) : ds = es := by
  refine List.ext_getElem hlength ?_
  intro i hi hi'
  have hdigit := congrArg (digit bits · i) h
  rwa [digit_value hds, digit_value hes, List.getD_eq_getElem _ _ hi, List.getD_eq_getElem _ _ hi'] at hdigit

/-! ## Digits in groups -/

/-- The low digits of a quotient by a power of two survive a wrap above them. -/
theorem mod_div_mod (n : Nat) {word shift keep : Nat} (h : shift + keep ≤ word) :
    n % 2 ^ word / 2 ^ shift % 2 ^ keep = n / 2 ^ shift % 2 ^ keep := by
  have hword : 2 ^ word = 2 ^ shift * 2 ^ (word - shift) := by rw [← pow_add, Nat.add_sub_cancel' (by omega)]
  rw [hword, Nat.mod_mul_right_div_self, Nat.mod_mod_of_dvd _ (Nat.pow_dvd_pow 2 (by omega))]

/-- A digit of a group of `count` digits is a digit of the number. -/
theorem digit_digit (bits n : Nat) {count i : Nat} (hi : i < count) (place : Nat) :
    digit bits (digit (bits * count) n place) i = digit bits n (place * count + i) := by
  have hfits : bits * i + bits ≤ bits * count := Nat.mul_succ bits i ▸ Nat.mul_le_mul_left bits hi
  have hplace : bits * (place * count + i) = bits * count * place + bits * i := by ring
  rw [digit, digit, digit, Nat.pow_eq, Nat.pow_eq, Nat.pow_eq, Nat.pow_eq, Nat.pow_eq, mod_div_mod _ hfits, Nat.div_div_eq_div_mul,
    ← pow_add, hplace]

/-- The members of a group of digits. -/
def group (bits n count place : Nat) : List Nat := (List.range count).map fun i => digit bits n (place * count + i)

theorem group_lt (bits n count place : Nat) : ∀ d ∈ group bits n count place, d < 2 ^ bits := by
  intro d hd
  obtain ⟨i, -, rfl⟩ := List.mem_map.1 hd
  exact digit_lt bits n _

/-- A group of `count` digits is the number its members make up. -/
theorem digit_eq_value (bits n count place : Nat) : digit (bits * count) n place = value bits (group bits n count place) := by
  have hlength : (group bits n count place).length = count := by rw [group, List.length_map, List.length_range]
  have hlt := value_lt (group_lt bits n count place)
  rw [hlength] at hlt
  refine eq_of_digits (digit_lt _ _ _) hlt ?_
  intro i hi
  rw [digit_digit bits n hi, digit_value (group_lt bits n count place), List.getD_eq_getElem _ _ (hlength.symm ▸ hi)]
  simp [group]

/-! ## Bits of packed digits -/

/-- Bytes are digits of eight bits. -/
theorem bytes_lt (bytes : Bytes) : ∀ d ∈ bytes.map UInt8.toNat, d < 2 ^ 8 := by
  intro d hd
  obtain ⟨b, -, rfl⟩ := List.mem_map.1 hd
  exact b.toNat_lt

/-- Two byte strings of one length are the same if they make up the same number. -/
theorem bytes_eq_of_value {x y : Bytes} (hlength : x.length = y.length)
    (h : value 8 (x.map UInt8.toNat) = value 8 (y.map UInt8.toNat)) : x = y := by
  refine (List.map_inj_right fun _ _ => UInt8.toNat.inj).1 ?_
  exact eq_of_value (bytes_lt x) (bytes_lt y) (by simpa using hlength) h

/-- The `size` lowest bytes of a number. -/
def bytesOf (size n : Nat) : Bytes := (group 8 n size 0).map UInt8.ofNat

theorem length_bytesOf (size n : Nat) : (bytesOf size n).length = size := by simp [bytesOf, group]

/-- A number that fits in `size` bytes is what its bytes make up. -/
theorem value_bytesOf {size n : Nat} (h : n < 2 ^ (8 * size)) : value 8 ((bytesOf size n).map UInt8.toNat) = n := by
  have hbytes : (bytesOf size n).map UInt8.toNat = group 8 n size 0 := by
    rw [bytesOf, List.map_map]
    refine (List.map_congr_left fun d hd => ?_).trans (List.map_id _)
    exact UInt8.toNat_ofNat_of_lt' (group_lt 8 n size 0 d hd)
  rw [hbytes, ← digit_eq_value, digit_zero, Nat.mod_eq_of_lt h]

/-- Values of `bits` bits are digits. -/
theorem digits_lt {digits : Vector UInt16 256} (h : ∀ t : Fin 256, (digits.get t).toNat < 2 ^ bits) :
    ∀ d ∈ digits.toList.map UInt16.toNat, d < 2 ^ bits := by
  intro d hd
  obtain ⟨u, hu, rfl⟩ := List.mem_map.1 hd
  obtain ⟨i, hi, rfl⟩ := Vector.mem_iff_getElem.1 (Vector.mem_toList_iff.1 hu)
  exact h ⟨i, hi⟩

/-- A value is the digit at its place. -/
theorem digit_value_get {digits : Vector UInt16 256} (h : ∀ t : Fin 256, (digits.get t).toNat < 2 ^ bits) (i : Fin 256) :
    digit bits (value bits (digits.toList.map UInt16.toNat)) i = (digits.get i).toNat := by
  rw [digit_value (digits_lt h), List.getD_eq_getElem _ _ (by simp), List.getElem_map, Vector.getElem_toList]
  rfl

/-- Digits are packed into the bytes of the number they make up. -/
theorem toList_pack (digits : Vector UInt16 256) :
    (pack bits digits).toList = bytesOf (32 * bits) (value bits (digits.toList.map UInt16.toNat)) := by
  refine List.ext_getElem (by simp [length_bytesOf]) ?_
  intro j hj _
  simp [pack, bytesOf, group]

/-- Packed digits and the bytes they are packed into make up the same number. -/
theorem value_pack {digits : Vector UInt16 256} (h : ∀ t : Fin 256, (digits.get t).toNat < 2 ^ bits) :
    value 8 ((pack bits digits).toList.map UInt8.toNat) = value bits (digits.toList.map UInt16.toNat) := by
  have hlt := value_lt (digits_lt h)
  rw [List.length_map, Vector.length_toList, show bits * 256 = 8 * (32 * bits) by ring] at hlt
  rw [toList_pack, value_bytesOf hlt]

/-- Bit `i` of a byte string, the lowest bit of the first byte first. -/
def bitAt (bytes : Bytes) (i : Nat) : Nat := (bytes.getD (i / 8) 0).toNat / 2 ^ (i % 8) % 2

theorem bitAt_lt (bytes : Bytes) (i : Nat) : bitAt bytes i < 2 := Nat.mod_lt _ Nat.two_pos

/-- The number that `width` bits of a byte string make up, from bit `width * i` on, the lowest bit first. -/
def field (width : Nat) (bytes : Bytes) (i : Nat) : Nat := value 1 ((List.range width).map fun j => bitAt bytes (width * i + j))

/-- The bits of a byte string are the bits of the number it makes up. -/
theorem bitAt_eq_digit (bytes : Bytes) (i : Nat) : bitAt bytes i = digit 1 (value 8 (bytes.map UInt8.toNat)) i := by
  have hbit := digit_digit 1 (value 8 (bytes.map UInt8.toNat)) (Nat.mod_lt i (show 0 < 8 by decide)) (i / 8)
  rw [Nat.div_add_mod', Nat.one_mul, digit_value (bytes_lt bytes), ← UInt8.toNat_zero, List.getD_map] at hbit
  rw [← hbit, bitAt, digit, Nat.one_mul]
  rfl

/-- The fields of a byte string are the digits of the number it makes up. -/
theorem field_eq_digit (width : Nat) (bytes : Bytes) (i : Nat) :
    field width bytes i = digit width (value 8 (bytes.map UInt8.toNat)) i := by
  have hgroup := digit_eq_value 1 (value 8 (bytes.map UInt8.toNat)) width i
  rw [Nat.one_mul] at hgroup
  simp only [hgroup, field, group, bitAt_eq_digit, Nat.mul_comm i]

/-- A field has no more bits than its width. -/
theorem field_lt (width : Nat) (bytes : Bytes) (i : Nat) : field width bytes i < 2 ^ width := by
  rw [field_eq_digit]
  exact digit_lt width _ i

/-- Two byte strings of one length are the same if their fields are, where the fields make up the strings. -/
theorem eq_of_fields {width count : Nat} {x y : Bytes} (hx : 8 * x.length = width * count) (hy : 8 * y.length = width * count)
    (h : ∀ i < count, field width x i = field width y i) : x = y := by
  have hxlt := value_lt (bytes_lt x)
  have hylt := value_lt (bytes_lt y)
  rw [List.length_map, hx] at hxlt
  rw [List.length_map, hy] at hylt
  refine bytes_eq_of_value (by omega) (eq_of_digits hxlt hylt fun i hi => ?_)
  rw [← field_eq_digit, ← field_eq_digit, h i hi]

/-- A field of one bit is the bit. -/
theorem field_one (bytes : Bytes) (i : Nat) : field 1 bytes i = bitAt bytes i := by
  rw [field_eq_digit, bitAt_eq_digit]

/-- The bits of a byte string are the bits of its fields, in order. -/
theorem bitAt_field (bytes : Bytes) (i : Nat) {width j : Nat} (hj : j < width) :
    bitAt bytes (width * i + j) = field width bytes i / 2 ^ j % 2 := by
  have hbit := digit_digit 1 (value 8 (bytes.map UInt8.toNat)) hj i
  rw [Nat.one_mul, ← field_eq_digit, Nat.mul_comm i, ← bitAt_eq_digit, digit, Nat.one_mul] at hbit
  exact hbit.symm

/-- The fields of packed digits are the digits. -/
theorem field_pack {digits : Vector UInt16 256} (h : ∀ t : Fin 256, (digits.get t).toNat < 2 ^ bits) (i : Fin 256) :
    field bits (pack bits digits).toList i = (digits.get i).toNat := by
  rw [field_eq_digit, value_pack h, digit_value_get h]

/-- Packed digits are a given byte string exactly if they are its fields. -/
theorem pack_eq_iff {digits : Vector UInt16 256} (h : ∀ t : Fin 256, (digits.get t).toNat < 2 ^ bits) {bytes : Bytes}
    (hlength : bytes.length = 32 * bits) :
    (pack bits digits).toList = bytes ↔ ∀ i : Fin 256, field bits bytes i = (digits.get i).toNat := by
  constructor
  · rintro rfl i
    exact field_pack h i
  · intro hfields
    have hpacked : 8 * (pack bits digits).toList.length = bits * 256 := by
      rw [Vector.length_toList]
      ring
    have hbytes : 8 * bytes.length = bits * 256 := by
      rw [hlength]
      ring
    refine eq_of_fields hpacked hbytes fun i hi => ?_
    rw [field_pack h ⟨i, hi⟩, ← hfields ⟨i, hi⟩]

/-! ## A part of a byte string -/

/-- The bits of a stretch of bytes are bits of the string. -/
theorem bitAt_stretch {bytes : Bytes} {start size i : Nat} (hi : i < 8 * size) :
    bitAt ((bytes.drop start).take size) i = bitAt bytes (8 * start + i) := by
  have hplace : (8 * start + i) / 8 = start + i / 8 ∧ (8 * start + i) % 8 = i % 8 := by omega
  have hin : i / 8 < size := by omega
  rw [bitAt, bitAt, hplace.1, hplace.2, List.getD_eq_getElem?_getD, List.getD_eq_getElem?_getD, List.getElem?_take_of_lt hin,
    List.getElem?_drop]

end ModuleLattice.Digits
