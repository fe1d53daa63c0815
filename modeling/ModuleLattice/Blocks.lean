/-!
# An array as consecutive blocks

The transforms and codecs take an array apart into blocks of one size, work on each block, and put the results back in order.
The size of an array of `n` blocks of `m` entries is written `n * m`, so that the index arithmetic is settled here once and
the passes themselves speak of blocks only. Core's `Vector.flatten` is the way back.
-/

namespace ModuleLattice

/-- A pair has a first place. -/
instance neZero_pair : @NeZero Nat Zero.ofOfNat0 2 := ⟨by decide⟩

/-- A triple has a first place. -/
instance neZero_triple : @NeZero Nat Zero.ofOfNat0 3 := ⟨by decide⟩

/-- A quadruple has a first place. -/
instance neZero_quad : @NeZero Nat Zero.ofOfNat0 4 := ⟨by decide⟩

/-- A quintuple has a first place. -/
instance neZero_quintuple : @NeZero Nat Zero.ofOfNat0 5 := ⟨by decide⟩

/-- An octuple has a first place. -/
instance neZero_octuple : @NeZero Nat Zero.ofOfNat0 8 := ⟨by decide⟩

/-- Of eleven places there is a first one. -/
instance neZero_eleven : @NeZero Nat Zero.ofOfNat0 11 := ⟨by decide⟩

/-- An index with its bound reads the entry at the index. -/
@[simp] theorem get_eq_getElem {α : Type} {n : Nat} (x : Vector α n) (i : Fin n) : x.get i = getElem x i.val i.isLt := rfl

theorem get_ofFn {α : Type} {n : Nat} (f : Fin n → α) (i : Fin n) : (Vector.ofFn f).get i = f i := by
  simp

theorem get_map {α β : Type} {n : Nat} (f : α → β) (x : Vector α n) (i : Fin n) : (x.map f).get i = f (x.get i) := by
  simp

theorem get_replicate {α : Type} {n : Nat} (a : α) (i : Fin n) : (Vector.replicate n a).get i = a := by
  simp

/-- Arrays are the same exactly if they are at every place. -/
theorem eq_iff_get {α : Type} {n : Nat} {x y : Vector α n} : x = y ↔ ∀ i : Fin n, x.get i = y.get i :=
  ⟨fun h _ => h ▸ rfl, fun h => Vector.ext fun i hi => h ⟨i, hi⟩⟩

/-- Entry `j` of block `b` lies inside an array of `n` blocks of `m` entries. -/
theorem block_index_lt {n m b j : Nat} (hb : b < n) (hj : j < m) : b * m + j < n * m := by
  calc b * m + j < b * m + m := Nat.add_lt_add_left hj _
    _ = (b + 1) * m := (Nat.succ_mul b m).symm
    _ ≤ n * m := Nat.mul_le_mul_right m hb

/-- Block `b` of an array of `n` blocks of `m` entries. -/
def block {α : Type} (n m : Nat) (x : Vector α (n * m)) (b : Fin n) : Vector α m :=
  Vector.ofFn fun j =>
    have := block_index_lt b.isLt j.isLt
    x[b.val * m + j.val]

/-- The first half of an array of even length. -/
def lowerHalf {α : Type} {n : Nat} (x : Vector α (n + n)) : Vector α n :=
  Vector.ofFn fun i => x[i.val]

/-- The second half of an array of even length. -/
def upperHalf {α : Type} {n : Nat} (x : Vector α (n + n)) : Vector α n :=
  Vector.ofFn fun i => x[n + i.val]

/-- Entry `j` of a block is the entry of the array at the block's place. -/
theorem getElem_block {α : Type} {n m : Nat} (x : Vector α (n * m)) (b : Fin n) (j : Nat) (hj : j < m) :
    (block n m x b)[j] =
      have := block_index_lt b.isLt hj
      x[b.val * m + j] := by
  simp [block]

@[simp] theorem getElem_lowerHalf {α : Type} {n : Nat} (x : Vector α (n + n)) (i : Nat) (hi : i < n) :
    (lowerHalf x)[i] = x[i] := by
  simp [lowerHalf]

@[simp] theorem getElem_upperHalf {α : Type} {n : Nat} (x : Vector α (n + n)) (i : Nat) (hi : i < n) :
    (upperHalf x)[i] = x[n + i] := by
  simp [upperHalf]

/-- The two halves of an array make it up. -/
theorem lowerHalf_append_upperHalf {α : Type} {n : Nat} (x : Vector α (n + n)) : lowerHalf x ++ upperHalf x = x := by
  ext i hi
  by_cases h : i < n
  · simp [h]
  · have hn : n + (i - n) = i := by omega
    simp [Vector.getElem_append, h, hn]

end ModuleLattice
