import ModuleLattice.Outline
import ModuleLattice.Ring.Vec

/-!
# The values of programs

A program works on registers that hold values of the library's types. `Value` is their sum; vectors carry their rank. Byte
strings and multiplication caches are answers of operations but no values: no register holds one by itself.
-/

namespace ModuleLattice

/-- What a register can hold. -/
inductive Value where
  | poly (p : Poly)
  | nttPoly (p : NttPoly)
  | cachedNttPoly (p : CachedNttPoly)
  | polyVec {rank : Nat} (v : PolyVec rank)
  | nttVec {rank : Nat} (v : NttVec rank)
  | cachedNttVec {rank : Nat} (v : CachedNttVec rank)
  | reader (r : Shake.Reader)
  | batchReader (r : Shake.BatchReader)

/-- The polynomial a value is, if it is one. -/
def Value.poly? : Value → Option Poly
  | .poly p => some p
  | _ => none

/-- The transformed polynomial a value is, if it is one. -/
def Value.nttPoly? : Value → Option NttPoly
  | .nttPoly p => some p
  | _ => none

/-- The outline of a coefficient array shows its first four entries. -/
def Coeffs.outline {n : Nat} (name : String) (x : Coeffs n) : Outline :=
  .record name [("coeffs[..4]", .list ((x.toList.take 4).map fun c => .text (toString c.toInt)))] false

/-- The outline of a polynomial. -/
def Poly.outline (p : Poly) : Outline := p.coeffs.outline "Polynomial"

/-- The outline of a transformed polynomial. -/
def NttPoly.outline (p : NttPoly) : Outline := p.coeffs.outline "NttPolynomial"

/-- The outline of a multiplication cache. -/
def MulCache.outline (c : MulCache) : Outline := c.coeffs.outline "MulCache"

/-- The outline of a transformed polynomial with its cache. -/
def CachedNttPoly.outline (p : CachedNttPoly) : Outline :=
  .record "CachedNttPolynomial" [("poly", p.poly.outline), ("cache", p.cache.outline)] true

/-- The outline of a vector lists its polynomials. -/
def Outline.vector (name : String) (items : List Outline) : Outline := .record name [("polys", .list items)] true

/-- The outline of a value, if it has one: readers do not show what they hold. -/
def Value.outline? : Value → Option Outline
  | .poly p => some p.outline
  | .nttPoly p => some p.outline
  | .cachedNttPoly p => some p.outline
  | .polyVec v => some (.vector "Vector" (v.polys.toList.map Poly.outline))
  | .nttVec v => some (.vector "NttVector" (v.polys.toList.map NttPoly.outline))
  | .cachedNttVec v => some (.vector "CachedNttVector" (v.polys.toList.map CachedNttPoly.outline))
  | .reader _ => none
  | .batchReader _ => none

/-- The outline of the fault that reports a wrong length. -/
def Fault.lengthOutline (expected actual : Nat) : Outline :=
  .record "InvalidLength" [("expected", .text (toString expected)), ("actual", .text (toString actual))] true

end ModuleLattice
