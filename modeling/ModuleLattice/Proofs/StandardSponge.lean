import ModuleLattice.Proofs.StateBytes
import Mathlib.Logic.Function.Iterate

/-!
# The sponge of the standard

The sponge of FIPS 202, written down block by block: the input is padded to whole blocks, every block is added to the front of
the state and followed by the permutation, and the output is the fronts of the states the permutation leads to, beginning with
the state that is left by the last block. The library's sponge works in another order: it pads in place, byte by byte,
and leaves the permutation behind the last block to the first block of output. `shake_eq_standard` says that the outputs are the
same, for every function in place of the permutation and for all lengths.
-/

namespace ModuleLattice.Shake

namespace Standard

/-! ## Blocks and padding -/

/-- What follows an input of a given length in its last block: the byte `0x1F`, zeros, and a last byte `0x80`; the two bytes are
one, `0x9F`, when there is room for one byte only. -/
def padding (rate length : Nat) : Bytes :=
  let room := rate - length % rate
  if room = 1 then [0x9F] else 0x1F :: List.replicate (room - 2) 0 ++ [0x80]

/-- The input padded to whole blocks. -/
def pad (rate : Nat) (input : Bytes) : Bytes := input ++ padding rate input.length

/-- The blocks of a byte string. -/
def blocks (rate : Nat) (bytes : Bytes) : List Bytes :=
  (List.range (bytes.length / rate)).map fun k => (bytes.drop (k * rate)).take rate

/-- The state with given bytes at its front, the first byte of a word lowest, and zeros behind them. -/
def stateOf (bytes : Bytes) : State :=
  Vector.ofFn fun i => UInt64.ofNat (Digits.value 8 (((bytes.drop (8 * i.val)).take 8).map UInt8.toNat))

/-- The 200 bytes of a state, word after word. -/
def bytesOf (s : State) : Bytes := (s.map fun w => Vector.ofFn fun j : Fin 8 => wordByte w j.val).flatten.toList

/-! ## The sponge -/

/-- A block taken in: it is added to the state, and the state is permuted. -/
def absorbBlock (f : State → State) (s : State) (block : Bytes) : State := f (Vector.zipWith (· ^^^ ·) s (stateOf block))

/-- An input taken in. -/
def absorb (f : State → State) (rate : Nat) (input : Bytes) : State :=
  (blocks rate (pad rate input)).foldl (absorbBlock f) State.zero

/-- The first `n` bytes of the blocks given out from a state on, with the permutation between them. -/
def squeeze (f : State → State) (rate n : Nat) (s : State) : Bytes :=
  ((List.range (n / rate + 1)).flatMap fun k => (bytesOf (f^[k] s)).take rate).take n

/-- The first `n` bytes of output for an input. -/
def sponge (f : State → State) (rate n : Nat) (input : Bytes) : Bytes := squeeze f rate n (absorb f rate input)

/-- Byte `k` of the endless output for an input. -/
def stream (f : State → State) (rate : Nat) (input : Bytes) (k : Nat) : UInt8 :=
  (bytesOf (f^[k / rate] (absorb f rate input))).getD (k % rate) 0

/-! ## States and bytes -/

/-- The bytes of the state with given bytes at its front. -/
theorem byteAt_stateOf (bytes : Bytes) {j : Nat} (hj : j < 200) : (stateOf bytes).byteAt j = bytes.getD j 0 := by
  have hword : j / 8 < 25 := by omega
  let digits := ((bytes.drop (8 * (j / 8))).take 8).map UInt8.toNat
  have hdigits : ∀ d ∈ digits, d < 2 ^ 8 := Digits.bytes_lt _
  have hfits : Digits.value 8 digits < 2 ^ 64 := by
    have hlen : digits.length ≤ 8 := by simp [digits]
    exact (Digits.value_lt hdigits).trans_le (Nat.pow_le_pow_right (by decide) (by omega))
  have hget : digits.getD (j % 8) 0 = (bytes.getD j 0).toNat := by
    have hplace : 8 * (j / 8) + j % 8 = j := Nat.div_add_mod j 8
    have hin : j % 8 < 8 := Nat.mod_lt j (by decide)
    simp only [digits, List.getD_eq_getElem?_getD, List.getElem?_map, List.getElem?_take, hin, if_true, List.getElem?_drop,
      hplace]
    cases bytes[j]? <;> rfl
  apply UInt8.toNat.inj
  rw [State.byteAt_eq_wordByte _ hword, toNat_wordByte, stateOf, Vector.getElem_ofFn, UInt64.toNat_ofNat',
    Nat.mod_eq_of_lt hfits, Digits.digit_value hdigits, hget]

/-- The bytes of a sum of states are the sums of the bytes. -/
theorem byteAt_sum (s t : State) (j : Nat) :
    State.byteAt (Vector.zipWith (· ^^^ ·) s t) j = s.byteAt j ^^^ t.byteAt j := by
  by_cases hj : j / 8 < 25
  · rw [State.byteAt_eq_wordByte _ hj, State.byteAt_eq_wordByte _ hj, State.byteAt_eq_wordByte _ hj, Vector.getElem_zipWith]
    exact wordByte_xor _ _ (Nat.mod_lt j (by decide))
  · simp [State.byteAt, hj]

/-- Bytes added one by one are bytes added as words. -/
theorem xorBytes_eq_sum (s : State) {bytes : Bytes} (h : bytes.length ≤ 200) :
    s.xorBytes bytes = Vector.zipWith (· ^^^ ·) s (stateOf bytes) := by
  refine State.eq_of_bytes ?_
  intro j hj
  rw [State.byteAt_xorBytes s h, byteAt_sum, byteAt_stateOf bytes hj]

/-- The front of a state. -/
theorem take_bytesOf (s : State) {n : Nat} (hn : n ≤ 200) : (bytesOf s).take n = s.bytes n := by
  have hall : bytesOf s = s.bytes 200 := by
    refine List.ext_getElem (by simp [bytesOf, State.bytes]) ?_
    intro j hj hj'
    have hword : j / 8 < 25 := by
      simp only [State.bytes, List.length_map, List.length_range] at hj'
      omega
    simp only [bytesOf, State.bytes, Vector.getElem_toList, Vector.getElem_flatten, Vector.getElem_map, Vector.getElem_ofFn,
      List.getElem_map, List.getElem_range, State.byteAt_eq_wordByte s hword]
  rw [hall, State.bytes, State.bytes, ← List.map_take, List.take_range, Nat.min_eq_left hn]

/-! ## Padding -/

variable {rate : Nat}

/-- Padding depends on the part of the input in its last block only. -/
theorem padding_add (rate length : Nat) : padding rate (length + rate) = padding rate length := by
  simp only [padding, Nat.add_mod_right]

/-- Padding fills the last block. -/
theorem length_padding (hrate : 0 < rate) (length : Nat) : (padding rate length).length = rate - length % rate := by
  have hmod := Nat.mod_lt length hrate
  unfold padding
  dsimp only
  split
  · rw [List.length_singleton]
    omega
  · simp only [List.length_append, List.length_cons, List.length_replicate, List.length_nil]
    omega

/-- The first block of a byte string that begins with a block. -/
theorem blocks_append (hrate : 0 < rate) {block : Bytes} (hblock : block.length = rate) (rest : Bytes) :
    blocks rate (block ++ rest) = block :: blocks rate rest := by
  have hcount : (block ++ rest).length / rate = rest.length / rate + 1 := by
    rw [List.length_append, hblock, Nat.add_div_left _ hrate]
  unfold blocks
  rw [hcount, List.range_succ_eq_map, List.map_cons, List.map_map]
  refine congrArg₂ List.cons ?_ (List.map_congr_left ?_)
  · rw [Nat.zero_mul, List.drop_zero, ← hblock, List.take_left]
  · intro k _
    have hplace : (k + 1) * rate = block.length + k * rate := by rw [hblock, Nat.succ_mul, Nat.add_comm]
    rw [Function.comp_apply, Nat.succ_eq_add_one, hplace, List.drop_append, Nat.add_sub_cancel_left, List.drop_eq_nil_of_le (by omega)]
    rfl

/-- The blocks of an input that fills its first block. -/
theorem blocks_pad_of_le (hrate : 0 < rate) {input : Bytes} (h : rate ≤ input.length) :
    blocks rate (pad rate input) = input.take rate :: blocks rate (pad rate (input.drop rate)) := by
  have hlen : input.length = (input.drop rate).length + rate := by
    rw [List.length_drop]
    omega
  have hsplit : pad rate input = input.take rate ++ pad rate (input.drop rate) := by
    unfold pad
    rw [← List.append_assoc, List.take_append_drop, hlen, padding_add]
  rw [hsplit, blocks_append hrate (by rw [List.length_take]; omega)]

/-- An input that is shorter than a block fills the block with its padding. -/
theorem length_pad {input : Bytes} (h : input.length < rate) : (pad rate input).length = rate := by
  rw [pad, List.length_append, length_padding (by omega), Nat.mod_eq_of_lt h]
  omega

/-- The one block of an input that is shorter than a block. -/
theorem blocks_pad_of_lt {input : Bytes} (h : input.length < rate) : blocks rate (pad rate input) = [pad rate input] := by
  have hone := blocks_append (by omega) (length_pad h) []
  rw [List.append_nil] at hone
  rw [hone, blocks, List.length_nil, Nat.zero_div]
  rfl

/-- Padding is two bytes added to zeros, which meet when there is room for one byte only. -/
theorem getD_padding {length : Nat} (h : length < rate) (i : Nat) :
    (padding rate length).getD i 0 = (if i = 0 then 0x1F else 0) ^^^ if i = rate - 1 - length then 0x80 else 0 := by
  unfold padding
  rw [Nat.mod_eq_of_lt h]
  dsimp only
  by_cases hroom : rate - length = 1
  · have hlast : rate - 1 - length = 0 := by omega
    rw [if_pos hroom, hlast]
    cases i with
    | zero => rfl
    | succ i => rw [List.getD_cons_succ, if_neg (Nat.succ_ne_zero i), if_neg (Nat.succ_ne_zero i)]; rfl
  · rw [if_neg hroom, List.cons_append]
    cases i with
    | zero => rw [List.getD_cons_zero, if_pos rfl, if_neg (by omega)]; rfl
    | succ i =>
      rw [List.getD_cons_succ, if_neg (Nat.succ_ne_zero i)]
      rcases Nat.lt_trichotomy i (rate - length - 2) with hlt | rfl | hgt
      · rw [List.getD_append _ _ _ _ (by simpa using hlt), if_neg (by omega)]
        simp
      · rw [List.getD_append_right _ _ _ _ (by simp), if_pos (by omega)]
        simp
      · rw [List.getD_eq_default _ _ (by simp; omega), if_neg (by omega)]
        rfl

/-- The bytes of the last block: the input, and what padding in place adds to it. -/
theorem getD_pad {input : Bytes} (h : input.length < rate) (j : Nat) :
    (pad rate input).getD j 0 =
      (input.getD j 0 ^^^ if j = input.length then 0x1F else 0) ^^^ if j = rate - 1 then 0x80 else 0 := by
  unfold pad
  by_cases hj : j < input.length
  · rw [List.getD_append _ _ _ _ hj, if_neg (by omega), if_neg (by omega), UInt8.xor_zero, UInt8.xor_zero]
  · have hfirst : j - input.length = 0 ↔ j = input.length := by omega
    have hlast : j - input.length = rate - 1 - input.length ↔ j = rate - 1 := by omega
    rw [List.getD_append_right _ _ _ _ (by omega), getD_padding h, List.getD_eq_default input 0 (by omega), UInt8.zero_xor]
    simp only [hfirst, hlast]

/-- Padding in place, on top of the state, adds the padded block to the state. -/
theorem pad_in_place (s : State) {rate : Rate} {input : Bytes} (h : input.length < rate.bytes) :
    ((s.xorBytes input).xorByte input.length paddingByte).xorByte (rate.bytes - 1) finalBit =
      s.xorBytes (pad rate.bytes input) := by
  have hsize := rate.le_state
  have hlen := length_pad h
  refine State.eq_of_bytes ?_
  intro j hj
  rw [State.byteAt_xorBytes s (by omega), getD_pad h, State.byteAt_xorByte _ _ (by omega), State.byteAt_xorByte _ _ (by omega),
    State.byteAt_xorBytes s (by omega)]
  simp only [UInt8.xor_assoc, paddingByte, finalBit]

/-! ## The two orders of the permutation -/

/-- The library's sponge leaves the last permutation to the output; with it, what is absorbed is what the standard absorbs. -/
theorem absorbFrom_eq_foldl (f : State → State) (rate : Rate) (s : State) (input : Bytes) :
    f (absorbFrom f rate s input) = (blocks rate.bytes (pad rate.bytes input)).foldl (absorbBlock f) s := by
  have hsize := rate.le_state
  fun_induction absorbFrom f rate s input with
  | case1 s input hfull ih =>
    rw [ih, blocks_pad_of_le rate.pos hfull, List.foldl_cons, absorbBlock,
      xorBytes_eq_sum s (by rw [List.length_take]; omega)]
  | case2 s input hlast =>
    have hshort : input.length < rate.bytes := Nat.lt_of_not_le hlast
    have hlen := length_pad hshort
    rw [blocks_pad_of_lt hshort, List.foldl_cons, List.foldl_nil, absorbBlock, ← xorBytes_eq_sum s (by omega), pad_in_place s hshort]

/-- Output within the first block. -/
theorem squeeze_of_lt (f : State → State) (s : State) {n : Nat} (h : n < rate) : squeeze f rate n s = (bytesOf s).take n := by
  rw [squeeze, Nat.div_eq_of_lt h, Nat.zero_add, List.range_one, List.flatMap_singleton, List.take_take, Nat.min_eq_left h.le]
  rfl

/-- Output beyond the first block goes on with the permuted state. -/
theorem squeeze_of_le (f : State → State) (s : State) {n : Nat} (hrate : 0 < rate) (hsize : rate ≤ 200) (h : rate ≤ n) :
    squeeze f rate n s = (bytesOf s).take rate ++ squeeze f rate (n - rate) (f s) := by
  have hcount : n / rate + 1 = (n - rate) / rate + 1 + 1 := by
    rw [Nat.div_eq_sub_div hrate h]
  have hfront : ((bytesOf s).take rate).length = rate := by
    rw [take_bytesOf s hsize]
    simp [State.bytes]
  unfold squeeze
  rw [hcount, List.range_succ_eq_map, List.flatMap_cons, List.flatMap_map, Function.iterate_zero_apply, List.take_append, hfront,
    List.take_of_length_le (by omega)]
  simp only [Nat.succ_eq_add_one, Function.iterate_succ_apply]

/-- The library's output permutes before each block; so it is the standard's output from the permuted state. -/
theorem squeeze_eq_standard (f : State → State) (rate : Rate) (n : Nat) (s : State) :
    Shake.squeeze f rate n s = squeeze f rate.bytes n (f s) := by
  have hsize := rate.le_state
  fun_induction Shake.squeeze f rate n s with
  | case1 s => rw [squeeze, List.take_zero]
  | case2 n s hn s' ih =>
    rw [ih]
    by_cases hlast : n < rate.bytes
    · have hnone : n - rate.bytes = 0 := by omega
      rw [squeeze_of_lt f s' hlast, hnone, squeeze, List.take_zero, List.append_nil, Nat.min_eq_left hlast.le,
        take_bytesOf s' (by omega)]
    · rw [squeeze_of_le f s' rate.pos hsize (by omega), Nat.min_eq_right (by omega), take_bytesOf s' hsize]

/-- The standard's output is as long as it is asked to be. -/
theorem length_squeeze (f : State → State) (hrate : 0 < rate) (hsize : rate ≤ 200) (n : Nat) (s : State) :
    (squeeze f rate n s).length = n := by
  induction n using Nat.strongRecOn generalizing s with
  | ind n ih =>
    by_cases hlast : n < rate
    · rw [squeeze_of_lt f s hlast, take_bytesOf s (by omega)]
      simp [State.bytes]
    · rw [squeeze_of_le f s hrate hsize (by omega), List.length_append, ih _ (by omega), take_bytesOf s hsize]
      simp only [State.bytes, List.length_map, List.length_range]
      omega

/-- Up to the end of the first block the output is the front of the state. -/
theorem take_bytesOf_eq_map (f : State → State) (hsize : rate ≤ 200) (s : State) {n : Nat} (hn : n ≤ rate) :
    (bytesOf s).take n = (List.range n).map fun k => (bytesOf (f^[k / rate] s)).getD (k % rate) 0 := by
  have hlength : (bytesOf s).length = 200 := by simp [bytesOf]
  refine List.ext_getElem (by simp [hlength]; omega) ?_
  intro k hk _
  have hk : k < rate := (by simpa using hk : k < n ∧ k < (bytesOf s).length).1.trans_le hn
  rw [List.getElem_take, List.getElem_map, List.getElem_range, Nat.div_eq_of_lt hk, Nat.mod_eq_of_lt hk,
    Function.iterate_zero_apply, List.getD_eq_getElem _ _ (by omega)]

/-- The output is a beginning of the blocks given out, byte by byte. -/
theorem squeeze_eq_map (f : State → State) (hrate : 0 < rate) (hsize : rate ≤ 200) (n : Nat) (s : State) :
    squeeze f rate n s = (List.range n).map fun k => (bytesOf (f^[k / rate] s)).getD (k % rate) 0 := by
  induction n using Nat.strongRecOn generalizing s with
  | ind n ih =>
    by_cases hlast : n < rate
    · rw [squeeze_of_lt f s hlast, take_bytesOf_eq_map f hsize s hlast.le]
    · obtain ⟨m, rfl⟩ := Nat.exists_eq_add_of_le (Nat.le_of_not_lt hlast)
      rw [squeeze_of_le f s hrate hsize (by omega), Nat.add_sub_cancel_left, ih m (by omega),
        take_bytesOf_eq_map f hsize s le_rfl, List.range_add, List.map_append, List.map_map]
      refine congrArg (_ ++ ·) (List.map_congr_left fun k _ => ?_)
      rw [Function.comp_apply, Nat.add_mod_left, Nat.add_div_left k hrate, Function.iterate_succ_apply]

/-- The output is the beginning of the endless output. -/
theorem sponge_eq_stream (f : State → State) (hrate : 0 < rate) (hsize : rate ≤ 200) (n : Nat) (input : Bytes) :
    sponge f rate n input = (List.range n).map (stream f rate input) := squeeze_eq_map f hrate hsize n _

/-- The library's sponge at any rate. -/
theorem squeeze_absorb_eq_sponge (f : State → State) (rate : Rate) (n : Nat) (input : Bytes) :
    Shake.squeeze f rate n (Shake.absorb f rate input) = sponge f rate.bytes n input := by
  rw [squeeze_eq_standard, Shake.absorb, absorbFrom_eq_foldl f rate]
  rfl

end Standard

/-- The library's sponge is the sponge of the standard. For every function in place of the permutation, every input and every
number of bytes, SHAKE128 and SHAKE256 deliver as many bytes as are asked for, and they are the first bytes of the standard's
output at the rates 168 and 136. -/
theorem shake_eq_standard (f : State → State) (n : Nat) (input : Bytes) :
    (shake128 f n input = Standard.sponge f 168 n input ∧ (shake128 f n input).length = n) ∧
      shake256 f n input = Standard.sponge f 136 n input ∧ (shake256 f n input).length = n := by
  have h128 : shake128 f n input = Standard.sponge f 168 n input := Standard.squeeze_absorb_eq_sponge f rate128 n input
  have h256 : shake256 f n input = Standard.sponge f 136 n input := Standard.squeeze_absorb_eq_sponge f rate256 n input
  refine ⟨⟨h128, ?_⟩, h256, ?_⟩
  · rw [h128]
    exact Standard.length_squeeze f (by decide) (by decide) n _
  · rw [h256]
    exact Standard.length_squeeze f (by decide) (by decide) n _

end ModuleLattice.Shake
