import ModuleLattice.Proofs.RejectionScan

/-!
# Rejection is a filter that can be resumed

The candidates of a byte string are its fields of twelve bits, as far as they come in pairs that make three bytes
(`candidates_eq_fields`). What a scan leaves of an array is said in one equation: the accepted candidates for which there is room,
and behind them the slots that were not reached (`rejectUniform_eq`). In this form it makes no difference whether a string is
scanned at once or, cut between triples, in two pieces, the second from the first free slot on (`rejection_resumed`).
-/

namespace ModuleLattice

open Digits Rejection

namespace Rejection

/-- The candidates of a byte string are its fields of twelve bits, two for each three bytes. -/
theorem candidates_eq_fields (bytes : Bytes) : candidates bytes = (List.range (2 * (bytes.length / 3))).map (field 12 bytes) := by
  fun_induction candidates bytes with
  | case1 b0 b1 b2 rest ih =>
    have h0 := b0.toNat_lt
    have h1 := b1.toNat_lt
    have h2 := b2.toNat_lt
    let n := value 8 (rest.map UInt8.toNat)
    have hvalue : value 8 ((b0 :: b1 :: b2 :: rest).map UInt8.toNat) = b0.toNat + 256 * (b1.toNat + 256 * (b2.toNat + 256 * n)) := rfl
    have hlow : field 12 (b0 :: b1 :: b2 :: rest) 0 = b0.toNat + 256 * (b1.toNat % 16) := by
      rw [field_eq_digit, hvalue, digit_zero]
      omega
    have hhigh : field 12 (b0 :: b1 :: b2 :: rest) 1 = b1.toNat / 16 + 16 * b2.toNat := by
      rw [field_eq_digit, hvalue, digit_succ, digit_zero]
      omega
    have hrest (i : Nat) : field 12 (b0 :: b1 :: b2 :: rest) (i + 2) = field 12 rest i := by
      have hquotient : (b0.toNat + 256 * (b1.toNat + 256 * (b2.toNat + 256 * n))) / 2 ^ 12 / 2 ^ 12 = n := by omega
      rw [field_eq_digit, field_eq_digit, hvalue, digit_succ, digit_succ, hquotient]
    have hcount : 2 * ((b0 :: b1 :: b2 :: rest).length / 3) = 2 * (rest.length / 3) + 1 + 1 := by
      simp only [List.length_cons]
      omega
    rw [hcount, List.range_succ_eq_map, List.range_succ_eq_map, ih]
    simp [hlow, hhigh, hrest, Function.comp_def]
  | case2 bytes hshort =>
    have hfew : bytes.length < 3 := by
      rcases bytes with _ | ⟨b0, _ | ⟨b1, _ | ⟨b2, rest⟩⟩⟩
      · exact Nat.zero_lt_succ 2
      · exact Nat.one_lt_succ_succ 1
      · exact Nat.lt_succ_self 2
      · exact absurd rfl (hshort b0 b1 b2 rest)
    rw [Nat.div_eq_of_lt hfew]
    rfl

/-- The words that a byte string writes to an array: the accepted candidates for which there is room. -/
def written (slots : List Int16) (bytes : Bytes) : List Int16 :=
  ((accepted bytes).take slots.length).map fun c => Int16.ofNat c

theorem length_written (slots : List Int16) (bytes : Bytes) :
    (written slots bytes).length = min slots.length (accepted bytes).length := by
  rw [written, List.length_map, List.length_take]

/-- The words have the values of the candidates. -/
theorem map_toInt_written (slots : List Int16) (bytes : Bytes) :
    (written slots bytes).map Int16.toInt = ((accepted bytes).take slots.length).map fun c : Nat => (c : Int) := by
  rw [written, List.map_map]
  refine List.map_congr_left fun c hc => ?_
  have hlt := lt_of_mem_accepted (List.mem_of_mem_take hc)
  exact Int16.toInt_ofNat_of_lt (hlt.trans (by decide))

/-- Behind whole triples, a string writes on where they have stopped. -/
theorem written_append (slots : List Int16) {x : Bytes} (hx : 3 ∣ x.length) (y : Bytes) :
    written slots (x ++ y) = written slots x ++ written (slots.drop (written slots x).length) y := by
  have hroom : (slots.drop (written slots x).length).length = slots.length - (accepted x).length := by
    rw [List.length_drop, length_written]
    omega
  rw [written, accepted_append hx, List.take_append, List.map_append]
  refine congrArg₂ (· ++ ·) rfl ?_
  rw [written, hroom]

end Rejection

/-- A scan counts the words written, and leaves them before the slots that were not reached. -/
theorem rejectUniform_eq (slots : List Int16) (bytes : Bytes) :
    rejectUniform slots bytes =
      ((written slots bytes).length, written slots bytes ++ slots.drop (written slots bytes).length) := by
  obtain ⟨hwritten, hfree⟩ := (Filling.start slots).scan_takes bytes
  have hwords : ((Filling.start slots).scan bytes).written.toList = written slots bytes := hwritten
  have hrest : ((Filling.start slots).scan bytes).free = slots.drop (written slots bytes).length := by
    rw [hfree, length_written]
    change slots.drop _ = _
    rcases Nat.le_total slots.length (accepted bytes).length with hfull | hroom
    · rw [Nat.min_eq_left hfull, List.drop_of_length_le hfull, List.drop_length]
    · rw [Nat.min_eq_right hroom]
  rw [rejectUniform, Filling.slots, ← Array.length_toList, hwords, hrest]

/-- Rejection is a filter that can be resumed. For every array and every byte string, the candidates are the fields of twelve bits,
two for each three bytes; as many slots are counted as there are accepted candidates, but not more than there are; they hold the
first accepted candidates in order, and the slots behind them what they held before. And a string that is cut behind whole
triples can be scanned in two pieces, the second into the slots that the first left: the array is the same, and the counts add up. -/
theorem rejection_resumed (slots : List Int16) :
    (∀ bytes : Bytes,
      let count := (rejectUniform slots bytes).1
      let after := (rejectUniform slots bytes).2
      candidates bytes = (List.range (2 * (bytes.length / 3))).map (field 12 bytes) ∧
        count = min slots.length (accepted bytes).length ∧
        (after.take count).map Int16.toInt = ((accepted bytes).take count).map (fun c : Nat => (c : Int)) ∧
        after.drop count = slots.drop count) ∧
      ∀ x y : Bytes, 3 ∣ x.length →
        let first := rejectUniform slots x
        let second := rejectUniform (first.2.drop first.1) y
        rejectUniform slots (x ++ y) = (first.1 + second.1, first.2.take first.1 ++ second.2) := by
  constructor
  · intro bytes
    rw [rejectUniform_eq]
    dsimp only
    rw [List.take_left, List.drop_left]
    refine ⟨candidates_eq_fields bytes, length_written slots bytes, ?_, rfl⟩
    rw [map_toInt_written, length_written, ← List.take_eq_take_min]
  · intro x y hx
    rw [rejectUniform_eq slots (x ++ y), rejectUniform_eq slots x]
    dsimp only
    rw [List.drop_left, List.take_left, rejectUniform_eq, written_append slots hx, List.length_append, List.append_assoc,
      List.drop_drop]

/-- Into an array of three slots the candidates 1, 3329 and then 4095, 291, 5, 6 write 1, 291 and 5: it is full within the last
triple, at once and in two pieces. -/
theorem rejection_resumed_full :
    3 ∣ [0x01, 0x10, (0xD0 : UInt8)].length ∧
      rejectUniform [7, 8, 9] [0x01, 0x10, 0xD0] = (1, [1, 8, 9]) ∧
      rejectUniform [8, 9] [0xFF, 0x3F, 0x12, 0x05, 0x60, 0x00] = (2, [291, 5]) ∧
      rejectUniform [7, 8, 9] ([0x01, 0x10, 0xD0] ++ [0xFF, 0x3F, 0x12, 0x05, 0x60, 0x00]) = (3, [1, 291, 5]) := by
  have hcut : 3 ∣ [0x01, 0x10, (0xD0 : UInt8)].length := by decide
  have hfirst : rejectUniform [7, 8, 9] [0x01, 0x10, 0xD0] = (1, [1, 8, 9]) := by decide
  have hsecond : rejectUniform [8, 9] [0xFF, 0x3F, 0x12, 0x05, 0x60, 0x00] = (2, [291, 5]) := by decide
  refine ⟨hcut, hfirst, hsecond, ?_⟩
  have hwhole := (rejection_resumed [7, 8, 9]).2 _ [0xFF, 0x3F, 0x12, 0x05, 0x60, 0x00] hcut
  rw [hfirst] at hwhole
  dsimp only [List.drop, List.take] at hwhole
  rw [hsecond] at hwhole
  exact hwhole

end ModuleLattice
