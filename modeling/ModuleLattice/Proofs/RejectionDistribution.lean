import ModuleLattice.Proofs.FieldCounting
import ModuleLattice.Proofs.RejectionResumed
import Mathlib.Data.Fintype.BigOperators

/-!
# Rejection is exactly uniform

Byte strings of `m` triples are as good as strings of `2 * m` candidates of twelve bits (`encard_bytes`), so what is written is
counted over candidates. A candidate string goes on in one of two ways: its first candidate is one of 767 that are dropped, and
what follows writes all the numbers; or it is the first of the numbers, and what follows writes the others with one slot less
(`card_runs_cons`). Which numbers they are does not enter, as long as they are below the modulus, nor does the place where an array
becomes full (`card_runs_congr`); and where it does not, the count is binomial (`card_runs_of_le`).
-/

namespace ModuleLattice

open Finset Digits

namespace Rejection

/-! ## Strings of candidates -/

/-- The accepted candidates of a string of candidates, in order. -/
def acceptedOf {k : Nat} (run : Fin k → Fin (2 ^ 12)) : List Nat := (List.ofFn fun i => (run i).val).filter (· < 3329)

/-- The strings of `k` candidates of which the accepted ones, as far as there is room, are the given numbers. -/
def runs (k room : Nat) (numbers : List Nat) : Finset (Fin k → Fin (2 ^ 12)) :=
  univ.filter fun run => (acceptedOf run).take room = numbers

theorem acceptedOf_zero (run : Fin 0 → Fin (2 ^ 12)) : acceptedOf run = [] := rfl

theorem acceptedOf_cons {k : Nat} (c : Fin (2 ^ 12)) (run : Fin k → Fin (2 ^ 12)) :
    acceptedOf (Fin.cons c run : Fin (k + 1) → Fin (2 ^ 12)) = if c.val < 3329 then c.val :: acceptedOf run else acceptedOf run := by
  rw [acceptedOf, List.ofFn_succ, List.filter_cons]
  simp only [decide_eq_true_eq]
  rfl

/-- Strings with a property are counted by their first symbol. -/
theorem card_filter_cons {α : Type} [Fintype α] {k : Nat} (P : (Fin (k + 1) → α) → Prop) [DecidablePred P] :
    (univ.filter P).card = ∑ a : α, (univ.filter fun run : Fin k → α => P (Fin.cons a run)).card := by
  simp only [card_filter]
  rw [← (Fin.consEquiv fun _ => α).sum_comp, Fintype.sum_prod_type]
  rfl

/-- Of the candidates 767 are not below the modulus. -/
theorem sum_candidates (f : Nat → Nat) (dropped : Nat) :
    ∑ c : Fin (2 ^ 12), (if c.val < 3329 then f c else dropped) = ∑ c ∈ range 3329, f c + 767 * dropped := by
  rw [Fin.sum_univ_eq_sum_range (fun c => if c < 3329 then f c else dropped) (2 ^ 12), show 2 ^ 12 = 3329 + 767 from rfl, sum_range_add]
  refine congrArg₂ (· + ·) (sum_congr rfl fun c hc => if_pos (mem_range.1 hc)) ?_
  rw [sum_congr rfl fun c _ => if_neg (Nat.not_lt.2 (Nat.le_add_right 3329 c)), sum_const, card_range, smul_eq_mul]

/-- The first candidate of a string is dropped, or it comes first. -/
theorem card_runs_succ (k room : Nat) (numbers : List Nat) :
    (runs (k + 1) (room + 1) numbers).card =
      ∑ c ∈ range 3329, (univ.filter fun run : Fin k → Fin (2 ^ 12) => c :: (acceptedOf run).take room = numbers).card +
        767 * (runs k (room + 1) numbers).card := by
  rw [runs, card_filter_cons, ← sum_candidates]
  refine sum_congr rfl fun c _ => ?_
  simp only [acceptedOf_cons]
  split <;> rfl

theorem card_runs_nil (k room : Nat) : (runs (k + 1) (room + 1) []).card = 767 * (runs k (room + 1) []).card := by
  simp [card_runs_succ]

theorem card_runs_cons (k room : Nat) {c : Nat} (hc : c < 3329) (numbers : List Nat) :
    (runs (k + 1) (room + 1) (c :: numbers)).card =
      (runs k room numbers).card + 767 * (runs k (room + 1) (c :: numbers)).card := by
  have hfirst (c' : Nat) : (univ.filter fun run : Fin k → Fin (2 ^ 12) => c' :: (acceptedOf run).take room = c :: numbers).card =
      if c = c' then (runs k room numbers).card else 0 := by
    split
    · rename_i h
      simp [runs, h]
    · rename_i h
      simp [Ne.symm h]
  rw [card_runs_succ, sum_congr rfl fun c' _ => hfirst c', sum_ite_eq, if_pos (mem_range.2 hc)]

/-- How many strings there are does not depend on the numbers, only on how many they are. -/
theorem card_runs_congr {k room : Nat} {v w : List Nat} (hlength : v.length = w.length) (hv : ∀ c ∈ v, c < 3329)
    (hw : ∀ c ∈ w, c < 3329) : (runs k room v).card = (runs k room w).card := by
  have hnil {v w : List Nat} (h : v.length = w.length) : [] = v ↔ [] = w := by
    rw [List.nil_eq, List.nil_eq, ← List.length_eq_zero_iff, h, List.length_eq_zero_iff]
  induction k generalizing room v w with
  | zero => simp [runs, acceptedOf_zero, hnil hlength]
  | succ k ih =>
    cases room with
    | zero => simp [runs, hnil hlength]
    | succ room =>
      cases v with
      | nil => rw [List.length_eq_zero_iff.1 hlength.symm]
      | cons c v =>
        cases w with
        | nil => cases hlength
        | cons d w =>
          obtain ⟨hc, hv'⟩ := List.forall_mem_cons.1 hv
          obtain ⟨hd, hw'⟩ := List.forall_mem_cons.1 hw
          rw [card_runs_cons k room hc, card_runs_cons k room hd, ih (Nat.succ.inj hlength) hv' hw', ih hlength hv hw]

/-- Where there is room for all candidates, the accepted ones are placed among them in any way, and the others are dropped ones. -/
theorem card_runs_of_le {k room : Nat} (hroom : k ≤ room) {v : List Nat} (hv : ∀ c ∈ v, c < 3329) :
    (runs k room v).card = k.choose v.length * 767 ^ (k - v.length) := by
  induction k generalizing room v with
  | zero => cases v <;> simp [runs, acceptedOf_zero]
  | succ k ih =>
    obtain ⟨room, rfl⟩ : ∃ r, room = r + 1 := ⟨room - 1, by omega⟩
    cases v with
    | nil =>
      rw [card_runs_nil, ih (by omega) hv, List.length_nil, Nat.choose_zero_right, Nat.choose_zero_right, Nat.one_mul, Nat.one_mul,
        Nat.sub_zero, Nat.sub_zero, pow_succ, Nat.mul_comm]
    | cons c v =>
      obtain ⟨hc, hv'⟩ := List.forall_mem_cons.1 hv
      rw [card_runs_cons k room hc, ih (by omega) hv', ih (by omega) hv, List.length_cons, Nat.choose_succ_succ, Nat.add_mul,
        Nat.succ_sub_succ]
      -- with more numbers than further candidates no string is left that begins with a dropped one
      rcases Nat.lt_or_ge v.length k with hmore | hless
      · rw [show k - v.length = k - (v.length + 1) + 1 by omega, pow_succ]
        ring
      · rw [Nat.choose_eq_zero_of_lt (Nat.lt_succ_of_le hless)]
        ring

/-! ## Byte strings -/

/-- The byte strings of `m` triples that write just the coefficients to an array: they are counted, and the slots counted hold
them. -/
def sources (m : Nat) (slots : List Int16) {n : Nat} (coeffs : Coeffs n) : Set Bytes :=
  {bytes | bytes.length = 3 * m ∧ (rejectUniform slots bytes).1 = n ∧ (rejectUniform slots bytes).2.take n = coeffs.toList}

/-- The coefficients as numbers. -/
def numbers {n : Nat} (coeffs : Coeffs n) : List Nat := coeffs.toList.map fun c => c.toInt.toNat

theorem forall_mem_toList {n : Nat} {coeffs : Coeffs n} (h : coeffs.Canonical) :
    ∀ c ∈ coeffs.toList, 0 ≤ c.toInt ∧ c.toInt < 3329 := by
  intro c hc
  obtain ⟨i, hi, rfl⟩ := Vector.mem_iff_getElem.1 (Vector.mem_toList_iff.1 hc)
  exact h ⟨i, hi⟩

theorem numbers_lt {n : Nat} {coeffs : Coeffs n} (h : coeffs.Canonical) : ∀ c ∈ numbers coeffs, c < 3329 := by
  intro c hc
  obtain ⟨word, hword, rfl⟩ := List.mem_map.1 hc
  have hrange := forall_mem_toList h word hword
  omega

/-- The numbers are the values of the coefficients. -/
theorem map_cast_numbers {n : Nat} {coeffs : Coeffs n} (h : coeffs.Canonical) :
    ((numbers coeffs).map fun c : Nat => (c : Int)) = coeffs.toList.map Int16.toInt := by
  rw [numbers, List.map_map]
  exact List.map_congr_left fun c hc => Int.toNat_of_nonneg (forall_mem_toList h c hc).1

theorem length_numbers {n : Nat} (coeffs : Coeffs n) : (numbers coeffs).length = n := by simp [numbers]

/-- The candidates of `m` triples are the fields of the string. -/
theorem accepted_eq_fields {m : Nat} {bytes : Bytes} (h : bytes.length = 3 * m) :
    accepted bytes = acceptedOf (fields 12 (2 * m) bytes) := by
  have htriples : bytes.length / 3 = m := by omega
  rw [accepted, acceptedOf, candidates_eq_fields, htriples]
  refine congrArg _ (List.ext_getElem (by simp) fun i _ _ => ?_)
  simp [fields]

/-- A string writes the coefficients exactly if its accepted candidates, as far as there is room, are their numbers. -/
theorem writes_iff {slots : List Int16} {bytes : Bytes} {n : Nat} {coeffs : Coeffs n} (h : coeffs.Canonical) :
    ((rejectUniform slots bytes).1 = n ∧ (rejectUniform slots bytes).2.take n = coeffs.toList) ↔
      (accepted bytes).take slots.length = numbers coeffs := by
  have hwritten : ((rejectUniform slots bytes).1 = n ∧ (rejectUniform slots bytes).2.take n = coeffs.toList) ↔
      written slots bytes = coeffs.toList := by
    rw [rejectUniform_eq]
    constructor
    · rintro ⟨hcount, htake⟩
      rwa [List.take_left' hcount] at htake
    · intro hwords
      have hcount : (written slots bytes).length = n := by rw [hwords, Vector.length_toList]
      exact ⟨hcount, (List.take_left' hcount).trans hwords⟩
  rw [hwritten, ← List.map_inj_right fun _ _ => Int16.toInt.inj, map_toInt_written, ← map_cast_numbers h]
  exact List.map_inj_right fun _ _ heq => Int.ofNat.inj heq

/-- There are as many strings that write the coefficients as there are strings of candidates with their numbers. -/
theorem encard_sources (m : Nat) (slots : List Int16) {n : Nat} {coeffs : Coeffs n} (h : coeffs.Canonical) :
    (sources m slots coeffs).encard = (runs (2 * m) slots.length (numbers coeffs)).card := by
  have hbits : 8 * (3 * m) = 12 * (2 * m) := by omega
  refine encard_bytes hbits fun bytes hlength => ?_
  rw [writes_iff h, accepted_eq_fields hlength]

end Rejection

open Rejection

/-- Rejection is exactly uniform. For every number of triples and arrays of one size, two sequences of as many coefficients below
the modulus are written by equally many byte strings, also where the array becomes full before the string ends; and if the array
has room for all candidates, they are so many as there are choices of the places of the accepted candidates and of the 767 values of
each of the others. -/
theorem rejection_distribution (m : Nat) {n : Nat} (slots slots' : List Int16) (hslots : slots.length = slots'.length)
    (v w : Coeffs n) (hv : v.Canonical) (hw : w.Canonical) :
    (sources m slots v).encard = (sources m slots' w).encard ∧
      (2 * m ≤ slots.length → (sources m slots v).encard = ((2 * m).choose n * 767 ^ (2 * m - n) : Nat)) := by
  have hlength : (numbers v).length = (numbers w).length := by rw [length_numbers, length_numbers]
  constructor
  · rw [encard_sources m slots hv, encard_sources m slots' hw, hslots, card_runs_congr hlength (numbers_lt hv) (numbers_lt hw)]
  · intro hroom
    rw [encard_sources m slots hv, card_runs_of_le hroom (numbers_lt hv), length_numbers]

/-- One triple writes just the coefficient 0 to an array of two slots as often as just 3328, from `2 * 767` strings; and two triples
as often to an array of one slot, which is full before they end. -/
theorem rejection_distribution_one :
    [7, (7 : Int16)].length = [8, (9 : Int16)].length ∧ [(7 : Int16)].length = [(8 : Int16)].length ∧
      Coeffs.Canonical (Vector.replicate 1 0) ∧ Coeffs.Canonical (Vector.replicate 1 3328) ∧ 2 * 1 ≤ [7, (7 : Int16)].length ∧
      (sources 1 [7, 7] (Vector.replicate 1 0)).encard = (sources 1 [8, 9] (Vector.replicate 1 3328)).encard ∧
      (sources 1 [7, 7] (Vector.replicate 1 0)).encard = (1534 : Nat) ∧
      (sources 2 [7] (Vector.replicate 1 0)).encard = (sources 2 [8] (Vector.replicate 1 3328)).encard := by
  have hv : Coeffs.Canonical (Vector.replicate 1 0) := by
    intro i
    rw [get_replicate]
    decide
  have hw : Coeffs.Canonical (Vector.replicate 1 3328) := by
    intro i
    rw [get_replicate]
    decide
  obtain ⟨hsame, hcount⟩ := rejection_distribution 1 [7, 7] [8, 9] rfl (Vector.replicate 1 0) (Vector.replicate 1 3328) hv hw
  obtain ⟨hfull, -⟩ := rejection_distribution 2 [7] [8] rfl (Vector.replicate 1 0) (Vector.replicate 1 3328) hv hw
  exact ⟨rfl, rfl, hv, hw, le_rfl, hsame, hcount le_rfl, hfull⟩

end ModuleLattice
