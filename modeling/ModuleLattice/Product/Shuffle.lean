import ModuleLattice.Blocks

/-!
# Sorting the entries of quadruples by their place

Lanes can only combine entries that sit in the same lane of two vectors, while the products combine entries of different
places in a quadruple. So four vectors of consecutive quadruples are sorted into four vectors by place, and the results are
mixed back. Both directions are two rounds of the same move on two vectors: `deinterleave` parts the even from the odd entries
of the two in sequence, and `interleave` is its inverse.
-/

namespace ModuleLattice

variable {α : Type}

/-- The even and the odd entries of two vectors in sequence. -/
def deinterleave {n : Nat} (x y : Vector α n) : Vector α n × Vector α n :=
  let both := x ++ y
  (Vector.ofFn fun i => both[2 * i.val], Vector.ofFn fun i => both[2 * i.val + 1])

/-- Entry `i` of the sequence that takes from two vectors in turn. -/
def alternate {n : Nat} (x y : Vector α n) (i : Fin (n + n)) : α :=
  if i.val % 2 = 0 then x[i.val / 2] else y[i.val / 2]

/-- The sequence that takes from two vectors in turn, as two vectors. -/
def interleave {n : Nat} (x y : Vector α n) : Vector α n × Vector α n :=
  (Vector.ofFn fun i => alternate x y (i.castAdd n), Vector.ofFn fun i => alternate x y (i.natAdd n))

/-- Quadruples sorted by place: the vector of first entries, of second entries, and so on. -/
def deinterleaveQuads {n : Nat} (x : Vector α (4 * n)) : Vector (Vector α n) 4 :=
  let (t0, t1) := deinterleave (block 4 n x 0) (block 4 n x 1)
  let (t2, t3) := deinterleave (block 4 n x 2) (block 4 n x 3)
  let (x0, x2) := deinterleave t0 t2
  let (x1, x3) := deinterleave t1 t3
  #v[x0, x1, x2, x3]

/-- Four vectors by place mixed back into quadruples. -/
def interleaveQuads {n : Nat} (r : Vector (Vector α n) 4) : Vector α (4 * n) :=
  let (low02, high02) := interleave (r.get 0) (r.get 2)
  let (low13, high13) := interleave (r.get 1) (r.get 3)
  let (out0, out1) := interleave low02 low13
  let (out2, out3) := interleave high02 high13
  #v[out0, out1, out2, out3].flatten

/-- Pairs sorted by place. -/
def deinterleavePairs {n : Nat} (x : Vector α (2 * n)) : Vector α n × Vector α n :=
  deinterleave (block 2 n x 0) (block 2 n x 1)

/-- Two vectors by place mixed back into pairs. -/
def interleavePairs {n : Nat} (x y : Vector α n) : Vector α (2 * n) :=
  let (low, high) := interleave x y
  #v[low, high].flatten

end ModuleLattice
