import ModuleLattice.Proofs.Digits
import Mathlib.Data.Set.Card
import Mathlib.Data.Fintype.Pi

/-!
# Counting byte strings by their fields

Where fields of one width make up byte strings of one length, a string is as good as its fields: every choice of fields is that of
exactly one string (`eq_of_fields`, `exists_fields`). So there are as many strings with a property as there are choices of fields
with it (`encard_bytes`), and the fields can be counted one by one.
-/

namespace ModuleLattice.Digits

open Finset

variable {width count size : Nat}

/-- The first fields of a byte string. -/
def fields (width count : Nat) (bytes : Bytes) (i : Fin count) : Fin (2 ^ width) := ⟨field width bytes i, field_lt width bytes i⟩

/-- Every choice of fields is that of a byte string. -/
theorem exists_fields (h : 8 * size = width * count) (f : Fin count → Fin (2 ^ width)) :
    ∃ bytes : Bytes, bytes.length = size ∧ fields width count bytes = f := by
  let digits := List.ofFn fun i => (f i).val
  have hdigits : ∀ d ∈ digits, d < 2 ^ width := by
    intro d hd
    obtain ⟨i, rfl⟩ := List.mem_ofFn.1 hd
    exact (f i).isLt
  have hfits := value_lt hdigits
  rw [List.length_ofFn, ← h] at hfits
  refine ⟨bytesOf size (value width digits), length_bytesOf size _, funext fun i => Fin.ext ?_⟩
  have hfield : field width (bytesOf size (value width digits)) i = digits.getD i 0 := by
    rw [field_eq_digit, value_bytesOf hfits, digit_value hdigits]
  simpa [fields, digits] using hfield

/-- There are as many byte strings with a property as there are choices of fields with it. -/
theorem encard_bytes (h : 8 * size = width * count) {P : Bytes → Prop} {Q : (Fin count → Fin (2 ^ width)) → Prop}
    [DecidablePred Q] (hPQ : ∀ bytes : Bytes, bytes.length = size → (P bytes ↔ Q (fields width count bytes))) :
    {bytes : Bytes | bytes.length = size ∧ P bytes}.encard = (univ.filter Q).card := by
  have hinj : Set.InjOn (fields width count) {bytes : Bytes | bytes.length = size ∧ P bytes} := by
    rintro x ⟨hx, -⟩ y ⟨hy, -⟩ hxy
    have hxfields : 8 * x.length = width * count := hx ▸ h
    have hyfields : 8 * y.length = width * count := hy ▸ h
    refine eq_of_fields hxfields hyfields fun i hi => ?_
    exact congrArg Fin.val (congrFun hxy ⟨i, hi⟩)
  have himage : fields width count '' {bytes : Bytes | bytes.length = size ∧ P bytes} = (univ.filter Q : Finset _) := by
    ext f
    rw [coe_filter_univ]
    constructor
    · rintro ⟨bytes, ⟨hlength, hP⟩, rfl⟩
      exact (hPQ bytes hlength).1 hP
    · intro hQ
      obtain ⟨bytes, hlength, rfl⟩ := exists_fields h f
      exact ⟨bytes, ⟨hlength, (hPQ bytes hlength).2 hQ⟩, rfl⟩
  rw [← hinj.encard_image, himage, Set.encard_coe_eq_coe_finsetCard]

end ModuleLattice.Digits
