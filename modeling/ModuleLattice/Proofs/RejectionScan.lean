import ModuleLattice.Sampling.Uniform
import ModuleLattice.Proofs.CheckedWord
import ModuleLattice.Proofs.Codecs

/-!
# What a scan accepts

A byte string has a list of candidates, two for every three bytes, and of those the accepted ones are below the modulus. Offering
one candidate, behind a test for a free slot or not, or scanning a whole string, is the same kind of step: an array takes a list of numbers, as many of them as there
are free slots, and the rest is lost (`Filling.Takes`). Such steps compose, and a step is determined by its list. So a string that
is scanned in pieces of whole triples is scanned as a whole (`scan_append`), wherever the array becomes full.
-/

namespace ModuleLattice

namespace Rejection

/-- The candidates of a byte string, in order; one or two bytes at its end make none. -/
def candidates : Bytes → List Nat
  | b0 :: b1 :: b2 :: rest => (b0.toNat + 256 * (b1.toNat % 16)) :: (b1.toNat / 16 + 16 * b2.toNat) :: candidates rest
  | _ => []

/-- The candidates below the modulus, in order. -/
def accepted (bytes : Bytes) : List Nat := (candidates bytes).filter (· < 3329)

theorem lt_of_mem_accepted {bytes : Bytes} {c : Nat} (h : c ∈ accepted bytes) : c < 3329 := by
  simpa using (List.mem_filter.1 h).2

/-- The candidates of whole triples come before those of what follows. -/
theorem candidates_append {x : Bytes} (hx : 3 ∣ x.length) (y : Bytes) : candidates (x ++ y) = candidates x ++ candidates y := by
  fun_induction candidates x with
  | case1 b0 b1 b2 rest ih =>
    have hrest : 3 ∣ rest.length := by simpa [Nat.add_assoc] using hx
    simp only [List.cons_append, candidates, ih hrest]
  | case2 x hshort =>
    have hnil : x = [] := by
      match x, hshort with
      | [], _ => rfl
      | [_], _ => simp at hx
      | [_, _], _ => simp at hx
      | b0 :: b1 :: b2 :: rest, hshort => exact absurd rfl (hshort b0 b1 b2 rest)
    rw [hnil]
    rfl

theorem accepted_append {x : Bytes} (hx : 3 ∣ x.length) (y : Bytes) : accepted (x ++ y) = accepted x ++ accepted y := by
  rw [accepted, candidates_append hx, List.filter_append]
  rfl

end Rejection

open Rejection

namespace Filling

variable {n : Nat} {s s' s'' : Filling n}

/-- An array takes numbers: as many as it has free slots, in order. -/
structure Takes (s : Filling n) (numbers : List Nat) (s' : Filling n) : Prop where
  written : s'.written.toList = s.written.toList ++ (numbers.take s.free.length).map fun c => Int16.ofNat c
  free : s'.free = s.free.drop numbers.length

/-- An array takes nothing from no numbers. -/
theorem Takes.nil (s : Filling n) : s.Takes [] s := ⟨by simp, by simp⟩

/-- A full array takes nothing. -/
theorem Takes.full (h : s.free = []) (numbers : List Nat) : s.Takes numbers s := ⟨by simp [h], by simp [h]⟩

/-- What is taken first and what is taken then are taken together. -/
theorem Takes.append {a b : List Nat} (h : s.Takes a s') (h' : s'.Takes b s'') : s.Takes (a ++ b) s'' where
  written := by
    rw [h'.written, h.written, h.free, List.length_drop, List.take_append, List.map_append, List.append_assoc]
  free := by
    rw [h'.free, h.free, List.drop_drop, List.length_append]

/-- The numbers determine what becomes of the array. -/
theorem Takes.unique {numbers : List Nat} (h : s.Takes numbers s') (h' : s.Takes numbers s'') : s' = s'' := by
  have hwritten : s'.written = s''.written := Array.toList_inj.1 (h.written.trans h'.written.symm)
  have hfree : s'.free = s''.free := h.free.trans h'.free.symm
  cases s'
  cases s''
  simp_all

/-- An array is full if it took at least as many numbers as it had free slots. -/
theorem Takes.free_eq_nil_iff {numbers : List Nat} (h : s.Takes numbers s') : s'.free = [] ↔ s.free.length ≤ numbers.length := by
  rw [h.free, List.drop_eq_nil_iff]

/-! ## Offers and scans -/

theorem toNat_lowCandidate (b0 b1 : UInt8) : (lowCandidate b0 b1).toNat = b0.toNat + 256 * (b1.toNat % 16) := by
  have h0 := b0.toNat_lt
  have h1 := b1.toNat_lt
  have hmask : b0.toNat ||| b1.toNat <<< 8 % 65536 = b0.toNat + b1.toNat % 256 * 256 :=
    Packing.or_shiftLeft_word (k := 8) h0 (by decide) b1.toNat
  have hlow : (lowCandidate b0 b1).toNat = (b0.toNat ||| b1.toNat <<< 8 % 65536) &&& 2 ^ 12 - 1 := by simp [lowCandidate]
  rw [hlow, hmask, Nat.and_two_pow_sub_one_eq_mod]
  omega

theorem toNat_highCandidate (b1 b2 : UInt8) : (highCandidate b1 b2).toNat = b1.toNat / 16 + 16 * b2.toNat := by
  have h1 := b1.toNat_lt
  have h2 := b2.toNat_lt
  have hor : b1.toNat / 16 ||| b2.toNat <<< 4 % 65536 = b1.toNat / 16 + b2.toNat % 4096 * 16 :=
    Packing.or_shiftLeft_word (k := 4) (by omega) (by decide) b2.toNat
  have hhigh : (highCandidate b1 b2).toNat = b1.toNat / 16 ||| b2.toNat <<< 4 % 65536 := by
    simp [highCandidate, Nat.shiftRight_eq_div_pow]
  rw [hhigh, hor]
  omega

/-- A candidate that is offered to a free slot is taken if it is below the modulus. -/
theorem offer_takes (h : s.free ≠ []) (candidate : UInt16) :
    s.Takes ([candidate.toNat].filter (· < 3329)) (s.offer h candidate) := by
  obtain ⟨slot, rest, hfree⟩ := List.exists_cons_of_ne_nil h
  unfold offer
  by_cases hc : candidate.toNat < 3329
  · have hword : candidate < 3329 := UInt16.lt_iff_toNat_lt.2 hc
    rw [if_pos hword]
    have hvalue : candidate.toInt16 = Int16.ofNat candidate.toNat := Int16.toBitVec_inj.1 (by simp)
    exact ⟨by simp [hfree, hc, hvalue], by simp [hc]⟩
  · have hword : ¬candidate < 3329 := fun hlt => hc (UInt16.lt_iff_toNat_lt.1 hlt)
    rw [if_neg hword, List.filter_singleton]
    simpa [hc] using Takes.nil s

/-- Behind a test for a free slot too; where there is none, nothing could be taken. -/
theorem offerIfFree_takes (s : Filling n) (candidate : UInt16) :
    s.Takes ([candidate.toNat].filter (· < 3329)) (s.offerIfFree candidate) := by
  unfold offerIfFree
  by_cases h : s.free = []
  · rw [dif_pos h]
    exact .full h _
  · rw [dif_neg h]
    exact offer_takes h candidate

/-- A scan takes the accepted candidates. -/
theorem scan_takes (s : Filling n) (bytes : Bytes) : s.Takes (accepted bytes) (s.scan bytes) := by
  fun_induction scan s bytes with
  | case1 s b0 b1 b2 rest hfull => exact .full hfull _
  | case2 s b0 b1 b2 rest hfree ih =>
    have hlow := offer_takes hfree (lowCandidate b0 b1)
    have hhigh := (s.offer hfree (lowCandidate b0 b1)).offerIfFree_takes (highCandidate b1 b2)
    rw [toNat_lowCandidate] at hlow
    rw [toNat_highCandidate] at hhigh
    have htriple := (hlow.append hhigh).append ih
    rwa [← List.filter_append, accepted, ← List.filter_append] at htriple
  | case3 bytes s hshort =>
    rw [accepted, candidates.eq_2 bytes hshort]
    exact .nil s

/-- A full array is left as it is. -/
theorem scan_full (h : s.free = []) (bytes : Bytes) : s.scan bytes = s := (s.scan_takes bytes).unique (.full h _)

/-- A string that begins with whole triples can be scanned in two pieces. -/
theorem scan_append (s : Filling n) {x : Bytes} (hx : 3 ∣ x.length) (y : Bytes) : s.scan (x ++ y) = (s.scan x).scan y := by
  have hwhole := s.scan_takes (x ++ y)
  rw [accepted_append hx] at hwhole
  exact hwhole.unique ((s.scan_takes x).append ((s.scan x).scan_takes y))

/-- The coefficients that a scan has newly written are the accepted candidates for which there were free slots. -/
theorem extract_scan (s : Filling n) (bytes : Bytes) :
    ((s.scan bytes).written.extract s.written.size).toList =
      ((accepted bytes).take s.free.length).map fun c => Int16.ofNat c := by
  have hwritten := (s.scan_takes bytes).written
  have hsize : (s.scan bytes).written.size = s.written.size + min s.free.length (accepted bytes).length := by
    simpa using congrArg List.length hwritten
  have hnew : s.free.length ≤ (s.scan bytes).written.size - s.written.size ∨
      (accepted bytes).length ≤ (s.scan bytes).written.size - s.written.size := by omega
  rw [Array.toList_extract, hwritten]
  simpa using hnew

/-- What a scan writes passes the check behind it. -/
theorem scanChecked_eq (s : Filling n) (bytes : Bytes) : s.scanChecked bytes = .ok (s.scan bytes) := by
  have hcheck : Contract.uniformOutput.require ((s.scan bytes).written.extract s.written.size).toVector = .ok () := by
    refine require_of_canonical rfl fun i => ?_
    have hmem : ((s.scan bytes).written.extract s.written.size).toVector.get i ∈
        ((s.scan bytes).written.extract s.written.size).toList := Array.mem_toList_iff.2 (Array.getElem_mem i.isLt)
    rw [extract_scan] at hmem
    obtain ⟨c, hc, hword⟩ := List.mem_map.1 hmem
    have hlt := lt_of_mem_accepted (List.mem_of_mem_take hc)
    rw [← hword, Int16.toInt_ofNat_of_lt (by omega)]
    omega
  unfold scanChecked
  dsimp only
  rw [hcheck]
  rfl

/-- The array is given out if and only if no slot is free. -/
theorem full?_eq_some_iff {x : Coeffs n} : s.full? = some x ↔ s.free = [] ∧ s.written.toList = x.toList := by
  unfold full?
  split
  · rename_i h
    rw [Option.some_inj, ← Vector.toArray_inj, ← Array.toList_inj]
    exact (and_iff_right h).symm
  · rename_i h
    simp [h]

theorem full?_eq_none_iff : s.full? = none ↔ s.free ≠ [] := by
  unfold full?
  split <;> simp_all

end Filling

end ModuleLattice
