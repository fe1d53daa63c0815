import ModuleLattice.Product.Shuffle
import ModuleLattice.Proofs.Layer

/-!
# Where the shuffles put the entries

The shuffles of the lane products move entries and compute nothing, so each is described by the place every entry comes from:
sorting puts entry `m` of quadruple `i` at place `i` of the vector `m`, mixing puts it back, and the same holds of pairs. The
vectors sit side by side in an array of blocks, which is how two rounds of one move on two vectors sort four.
-/

namespace ModuleLattice

variable {n : Nat}

/-- An entry of an array given by a function. -/
theorem entry_ofFn (f : Fin n → Int16) {i : Nat} (hi : i < n) : entry (Vector.ofFn f) i = f ⟨i, hi⟩ := by
  rw [entry_eq_getElem _ hi, Vector.getElem_ofFn]

/-- An entry of a block. -/
theorem entry_block {blocks : Nat} (x : Coeffs (blocks * n)) (b : Fin blocks) {i : Nat} (hi : i < n) :
    entry (block blocks n x b) i = entry x (b * n + i) := by
  rw [entry_eq_getElem _ hi, entry_eq_getElem _ (block_index_lt b.isLt hi), getElem_block]

/-- An entry of two vectors in sequence. -/
theorem entry_append (x y : Coeffs n) {i : Nat} (hi : i < n + n) :
    entry (x ++ y) i = if i < n then entry x i else entry y (i - n) := by
  rw [entry_eq_getElem _ hi, Vector.getElem_append]
  split
  · rw [entry_eq_getElem]
  · rw [entry_eq_getElem]

/-! ## Sorting -/

/-- Two neighbouring blocks in sequence are a stretch of the array. -/
theorem entry_neighbours {blocks : Nat} (x : Coeffs (blocks * n)) {b c : Fin blocks} (hc : c.val = b.val + 1) {i : Nat}
    (hi : i < n + n) : entry (block blocks n x b ++ block blocks n x c) i = entry x (b * n + i) := by
  rw [entry_append _ _ hi]
  split
  · rw [entry_block _ _ ‹_›]
  · have hplace : c.val * n + (i - n) = b * n + i := by
      rw [hc, Nat.succ_mul]
      omega
    rw [entry_block _ _ (by omega), hplace]

/-- The even and the odd entries of two vectors in sequence, by their places. -/
theorem entry_deinterleave (x y : Coeffs n) {i : Nat} (hi : i < n) :
    entry (deinterleave x y).1 i = entry (x ++ y) (2 * i) ∧ entry (deinterleave x y).2 i = entry (x ++ y) (2 * i + 1) := by
  constructor
  · rw [deinterleave, entry_ofFn _ hi, entry_eq_getElem (x ++ y) (by omega)]
  · rw [deinterleave, entry_ofFn _ hi, entry_eq_getElem (x ++ y) (by omega)]

/-- The first round of sorting: the even and the odd entries of a stretch of two blocks. -/
theorem entry_first_round {blocks : Nat} (x : Coeffs (blocks * n)) {b c : Fin blocks} (hc : c.val = b.val + 1) {i : Nat}
    (hi : i < n) :
    entry (deinterleave (block blocks n x b) (block blocks n x c)).1 i = entry x (b * n + 2 * i) ∧
      entry (deinterleave (block blocks n x b) (block blocks n x c)).2 i = entry x (b * n + 2 * i + 1) := by
  obtain ⟨heven, hodd⟩ := entry_deinterleave (block blocks n x b) (block blocks n x c) hi
  rw [heven, hodd, entry_neighbours x hc (by omega), entry_neighbours x hc (by omega)]
  exact ⟨rfl, rfl⟩

/-- The second round of sorting: from the even entries of both stretches, or from the odd ones, every other entry. -/
theorem entry_second_round (x : Coeffs (4 * n)) {low high : Coeffs n} {m : Nat}
    (hlow : ∀ i < n, entry low i = entry x (2 * i + m)) (hhigh : ∀ i < n, entry high i = entry x (2 * n + 2 * i + m))
    {i : Nat} (hi : i < n) :
    entry (deinterleave low high).1 i = entry x (4 * i + m) ∧ entry (deinterleave low high).2 i = entry x (4 * i + 2 + m) := by
  obtain ⟨heven, hodd⟩ := entry_deinterleave low high hi
  have hboth : ∀ t < n + n, entry (low ++ high) t = entry x (2 * t + m) := by
    intro t ht
    rw [entry_append _ _ ht]
    split
    · rw [hlow t ‹_›]
    · have hplace : 2 * n + 2 * (t - n) + m = 2 * t + m := by omega
      rw [hhigh _ (by omega), hplace]
  have hplaces : 2 * (2 * i) + m = 4 * i + m ∧ 2 * (2 * i + 1) + m = 4 * i + 2 + m := by omega
  rw [heven, hodd, hboth _ (by omega), hboth _ (by omega), hplaces.1, hplaces.2]
  exact ⟨rfl, rfl⟩

/-- Sorted pairs: the first entries and the second entries. -/
theorem entry_deinterleavePairs (x : Coeffs (2 * n)) {i : Nat} (hi : i < n) :
    entry (deinterleavePairs x).1 i = entry x (2 * i) ∧ entry (deinterleavePairs x).2 i = entry x (2 * i + 1) := by
  simpa [deinterleavePairs] using entry_first_round x (b := 0) (c := 1) rfl hi

/-- Sorted quadruples: vector `m` holds the entries `m` of the quadruples in order. -/
theorem entry_deinterleaveQuads (x : Coeffs (4 * n)) (m : Fin 4) {i : Nat} (hi : i < n) :
    entry ((deinterleaveQuads x).get m) i = entry x (4 * i + m) := by
  have hlow := fun (i : Nat) (hi : i < n) => entry_first_round x (b := 0) (c := 1) rfl hi
  have hhigh := fun (i : Nat) (hi : i < n) => entry_first_round x (b := 2) (c := 3) rfl hi
  simp only [Fin.val_zero, Nat.zero_mul, Nat.zero_add] at hlow
  have heven := entry_second_round x (m := 0) (fun i hi => (hlow i hi).1) (fun i hi => (hhigh i hi).1) hi
  have hodd := entry_second_round x (m := 1) (fun i hi => (hlow i hi).2) (fun i hi => (hhigh i hi).2) hi
  match m with
  | 0 => exact heven.1
  | 1 => exact hodd.1
  | 2 => exact heven.2
  | 3 => exact hodd.2

/-! ## Mixing -/

/-- An entry of the sequence that takes from two vectors in turn. -/
theorem alternate_eq (x y : Coeffs n) (i : Fin (n + n)) :
    alternate x y i = if i.val % 2 = 0 then entry x (i / 2) else entry y (i / 2) := by
  unfold alternate
  rw [entry_eq_getElem x (by omega), entry_eq_getElem y (by omega)]

/-- The two vectors of a mixed sequence, by their places. -/
theorem entry_interleave (x y : Coeffs n) {i : Nat} (hi : i < n) :
    (entry (interleave x y).1 i = if i % 2 = 0 then entry x (i / 2) else entry y (i / 2)) ∧
      entry (interleave x y).2 i = if (n + i) % 2 = 0 then entry x ((n + i) / 2) else entry y ((n + i) / 2) := by
  unfold interleave
  rw [entry_ofFn _ hi, entry_ofFn _ hi, alternate_eq, alternate_eq]
  exact ⟨rfl, rfl⟩

/-- A mixed sequence that fills two neighbouring blocks of an array. -/
theorem entry_flatten_interleave {blocks : Nat} (parts : Vector (Coeffs n) blocks) {b c : Fin blocks}
    (hc : c.val = b.val + 1) {x y : Coeffs n} (hlow : parts.get b = (interleave x y).1)
    (hhigh : parts.get c = (interleave x y).2) {t : Nat} (ht : t < n + n) :
    entry parts.flatten (b * n + t) = if t % 2 = 0 then entry x (t / 2) else entry y (t / 2) := by
  by_cases h : t < n
  · rw [entry_flatten parts b.isLt h, ← entry_eq_getElem _ h, ← (entry_interleave x y h).1, ← hlow]
    rfl
  · have hplace : b.val * n + t = c.val * n + (t - n) := by
      rw [hc, Nat.succ_mul]
      omega
    have hback : n + (t - n) = t := by omega
    have hin : t - n < n := by omega
    have hentry := (entry_interleave x y hin).2
    rw [hback] at hentry
    rw [hplace, entry_flatten parts c.isLt hin, ← entry_eq_getElem _ hin, ← hentry, ← hhigh]
    rfl

/-- Mixed pairs: the entries of the two vectors in turn. -/
theorem entry_interleavePairs (x y : Coeffs n) {t : Nat} (ht : t < n + n) :
    entry (interleavePairs x y) t = if t % 2 = 0 then entry x (t / 2) else entry y (t / 2) := by
  have hparts := entry_flatten_interleave #v[(interleave x y).1, (interleave x y).2] (b := 0) (c := 1) rfl rfl rfl ht
  rw [Fin.val_zero, Nat.zero_mul, Nat.zero_add] at hparts
  exact hparts

/-- Mixed quadruples, by the two last binary digits of the place. -/
theorem entry_interleaveQuads_digits (r : Vector (Coeffs n) 4) {t : Nat} (ht : t < 4 * n) :
    entry (interleaveQuads r) t =
      if t % 2 = 0 then if t / 2 % 2 = 0 then entry (r.get 0) (t / 2 / 2) else entry (r.get 2) (t / 2 / 2)
      else if t / 2 % 2 = 0 then entry (r.get 1) (t / 2 / 2) else entry (r.get 3) (t / 2 / 2) := by
  let even := interleave (r.get 0) (r.get 2)
  let odd := interleave (r.get 1) (r.get 3)
  let low := interleave even.1 odd.1
  let high := interleave even.2 odd.2
  let parts := #v[low.1, low.2, high.1, high.2]
  by_cases h : t < n + n
  · have hparts := entry_flatten_interleave parts (b := 0) (c := 1) rfl rfl rfl h
    have hhalf : t / 2 < n := by omega
    have heven := (entry_interleave (r.get 0) (r.get 2) hhalf).1
    have hodd := (entry_interleave (r.get 1) (r.get 3) hhalf).1
    rw [Fin.val_zero, Nat.zero_mul, Nat.zero_add, heven, hodd] at hparts
    exact hparts
  · have hparts := entry_flatten_interleave parts (b := 2) (c := 3) (t := t - 2 * n) rfl rfl rfl (by omega)
    have hhalf : (t - 2 * n) / 2 < n := by omega
    have hplace : (2 : Fin 4).val * n + (t - 2 * n) = t := by
      rw [Fin.val_two]
      omega
    have hdigit : (t - 2 * n) % 2 = t % 2 := by omega
    have hback : n + (t - 2 * n) / 2 = t / 2 := by omega
    have heven := (entry_interleave (r.get 0) (r.get 2) hhalf).2
    have hodd := (entry_interleave (r.get 1) (r.get 3) hhalf).2
    rw [hplace, hdigit, heven, hodd, hback] at hparts
    exact hparts

/-- Mixed quadruples: entry `m` of quadruple `i` is the entry `i` of vector `m`. -/
theorem entry_interleaveQuads (r : Vector (Coeffs n) 4) (m : Fin 4) {i : Nat} (hi : i < n) :
    entry (interleaveQuads r) (4 * i + m) = entry (r.get m) i := by
  have hplace : (4 * i + m.val) / 2 / 2 = i := by omega
  rw [entry_interleaveQuads_digits r (by omega), hplace]
  have hdigits : (4 * i + m.val) % 2 = m.val % 2 ∧ (4 * i + m.val) / 2 % 2 = m.val / 2 := by omega
  rw [hdigits.1, hdigits.2]
  match m with
  | 0 => rfl
  | 1 => rfl
  | 2 => rfl
  | 3 => rfl

end ModuleLattice
