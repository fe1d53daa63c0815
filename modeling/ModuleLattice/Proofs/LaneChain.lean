import ModuleLattice.Proofs.InverseTransform

/-!
# The transforms along the lane widths

A wider vector covers fewer layers of a transform: a pass over half a block takes as many whole vectors as fit, and what is left
runs on checked scalars. The scalar steps are the ones that can overflow, and where they do not they compute what a lane computes.
So a backend with narrower vectors answers wherever one with wider vectors does, and with the same words, also on coefficients that
no contract admits (`transforms_refine_along_widths`). The passes that treat every coefficient alone never overflow.
-/

namespace ModuleLattice

/-- The second computation answers wherever the first does, and with the same answer. -/
def AnsweredBy {α : Type} (x y : Except Fault α) : Prop := ∀ a, x = .ok a → y = .ok a

namespace AnsweredBy

variable {α β : Type}

theorem rfl {x : Except Fault α} : AnsweredBy x x := fun _ h => h

theorem of_eq {x y : Except Fault α} (h : x = y) : AnsweredBy x y := h ▸ rfl

/-- Two steps in sequence. -/
protected theorem bind {x y : Except Fault α} {f g : α → Except Fault β} (hx : AnsweredBy x y) (hf : ∀ a, AnsweredBy (f a) (g a)) :
    AnsweredBy (x >>= f) (y >>= g) := by
  intro b h
  obtain ⟨a, ha, hb⟩ := bind_eq_ok_iff.1 h
  exact bind_eq_ok_iff.2 ⟨a, hx a ha, hf a b hb⟩

/-- A loop. -/
protected theorem ofFnM {n : Nat} {f g : Fin n → Except Fault α} (h : ∀ i, AnsweredBy (f i) (g i)) :
    AnsweredBy (Vector.ofFnM f) (Vector.ofFnM g) := by
  intro v hv
  exact ofFnM_eq_ok_iff.2 fun i => h i _ (ofFnM_eq_ok_iff.1 hv i)

end AnsweredBy

/-! ## Passes and layers -/

variable {n blocks half wide wide' : Nat}

/-- A pass with more pairs in lanes answers wherever one with fewer does, if the scalar steps compute what lanes compute. -/
theorem pass_answeredBy (hwide : wide ≤ wide') {lane : Int16 → Int16 → Int16 × Int16}
    {scalar : Int16 → Int16 → Except Fault (Int16 × Int16)}
    (hscalar : ∀ low high, AnsweredBy (scalar low high) (.ok (lane low high))) (low high : Coeffs n) :
    AnsweredBy (Butterfly.pass wide lane scalar low high) (Butterfly.pass wide' lane scalar low high) := by
  refine .bind (.ofFnM fun i => ?_) fun _ => .rfl
  by_cases hi : i.val < wide
  · rw [if_pos hi, if_pos (hi.trans_le hwide)]
    exact .rfl
  · -- Of the pairs that are scalar in the first pass some may be in lanes in the second.
    rw [if_neg hi]
    split
    · exact hscalar _ _
    · exact .rfl

/-- A layer of passes that answer wherever other passes do. -/
theorem layer_answeredBy {pass pass' : Int16 → Coeffs half → Coeffs half → Except Fault (Coeffs half × Coeffs half)}
    (h : ∀ zeta low high, AnsweredBy (pass zeta low high) (pass' zeta low high)) (root : Fin blocks → Int16)
    (x : Coeffs (blocks * (half + half))) : AnsweredBy (layer pass root x) (layer pass' root x) :=
  .bind (.ofFnM fun _ => .bind (h _ _ _) fun _ => .rfl) fun _ => .rfl

/-! ## Backends -/

/-- A narrower vector takes at least as many entries of a row, if its lanes divide those of the wider one. -/
theorem vectorPart_le_of_dvd {lanes lanes' : Nat} (h : lanes' ∣ lanes) (n : Nat) : vectorPart lanes n ≤ vectorPart lanes' n := by
  have hrest : n % lanes' ≤ n % lanes := by
    rw [← Nat.mod_mod_of_dvd n h]
    exact Nat.mod_le _ _
  exact Nat.sub_le_sub_left hrest n

namespace Backend

/-- The backends, those first that run the fewest entries in lanes. -/
def chain : List Backend := [.reference, .simd .sixtyFour, .simd .thirtyTwo, .simd .sixteen, .simd .eight]

/-- Along the chain more entries run in lanes. -/
theorem chain_pairwise_vectorPart : chain.Pairwise fun b b' => ∀ n, b.vectorPart n ≤ b'.vectorPart n := by
  have hwidths : [LaneWidth.sixtyFour, .thirtyTwo, .sixteen, .eight].Pairwise fun w w' => w'.lanes ∣ w.lanes := by decide
  have hchain : chain = .reference :: [LaneWidth.sixtyFour, .thirtyTwo, .sixteen, .eight].map simd := rfl
  rw [hchain, List.pairwise_cons, List.pairwise_map]
  exact ⟨fun _ _ _ => Nat.zero_le _, hwidths.imp vectorPart_le_of_dvd⟩

section

variable {b b' : Backend} (h : ∀ n, b.vectorPart n ≤ b'.vectorPart n)

include h

theorem forwardLayer_answeredBy (blocks half : Nat) (hb : blocks ≤ 64) (x : Coeffs (blocks * (half + half))) :
    AnsweredBy (forwardLayer b blocks half hb x) (forwardLayer b' blocks half hb x) := by
  refine layer_answeredBy (fun zeta => pass_answeredBy (h half) fun low high r hr => ?_) _ x
  exact congrArg Except.ok (Scalar.forwardPair_eq_ok_iff.1 hr).2.2

theorem inverseLayer_answeredBy (blocks half : Nat) (hb : blocks ≤ 64) (x : Coeffs (blocks * (half + half))) :
    AnsweredBy (inverseLayer b blocks half hb x) (inverseLayer b' blocks half hb x) := by
  refine layer_answeredBy (fun zeta => pass_answeredBy (h half) fun low high r hr => ?_) _ x
  exact congrArg Except.ok (Scalar.inversePair_eq_ok_iff.1 hr).2.2

theorem forward_answeredBy (x : Coeffs 256) : AnsweredBy (b.forward x) (b'.forward x) := by
  unfold Backend.forward
  refine .bind (forwardLayer_answeredBy h 1 128 _ x) fun x => ?_
  refine .bind (forwardLayer_answeredBy h 2 64 _ x) fun x => ?_
  refine .bind (forwardLayer_answeredBy h 4 32 _ x) fun x => ?_
  refine .bind (forwardLayer_answeredBy h 8 16 _ x) fun x => ?_
  refine .bind (forwardLayer_answeredBy h 16 8 _ x) fun x => ?_
  refine .bind (forwardLayer_answeredBy h 32 4 _ x) fun x => ?_
  exact forwardLayer_answeredBy h 64 2 _ x

theorem inverse_answeredBy (x : Coeffs 256) : AnsweredBy (b.inverse x) (b'.inverse x) := by
  unfold Backend.inverse
  refine .bind (inverseLayer_answeredBy h 64 2 _ x) fun x => ?_
  refine .bind (inverseLayer_answeredBy h 32 4 _ x) fun x => ?_
  refine .bind (inverseLayer_answeredBy h 16 8 _ x) fun x => ?_
  refine .bind (inverseLayer_answeredBy h 8 16 _ x) fun x => ?_
  refine .bind (inverseLayer_answeredBy h 4 32 _ x) fun x => ?_
  refine .bind (inverseLayer_answeredBy h 2 64 _ x) fun x => ?_
  refine .bind (inverseLayer_answeredBy h 1 128 _ x) fun x => ?_
  exact .of_eq ((b.scale_eq_lane x).trans (b'.scale_eq_lane x).symm)

end

/-- Wherever the first backend answers, the second does, and with the same array, whatever the coefficients are. -/
structure RefinedBy (b b' : Backend) : Prop where
  forward (x : Coeffs 256) : AnsweredBy (b.forward x) (b'.forward x)
  inverse (x : Coeffs 256) : AnsweredBy (b.inverse x) (b'.inverse x)
  reduce (x : Coeffs 256) : AnsweredBy (b.reduce x) (b'.reduce x)
  toMontgomery (x : Coeffs 256) : AnsweredBy (b.toMontgomery x) (b'.toMontgomery x)

/-- A backend is refined by one that runs as many entries in lanes. -/
theorem refinedBy_of_vectorPart_le {b b' : Backend} (h : ∀ n, b.vectorPart n ≤ b'.vectorPart n) : b.RefinedBy b' where
  forward := forward_answeredBy h
  inverse := inverse_answeredBy h
  reduce x := .of_eq ((b.reduce_eq_lane x).trans (b'.reduce_eq_lane x).symm)
  toMontgomery x := .of_eq ((b.toMontgomery_eq_lane x).trans (b'.toMontgomery_eq_lane x).symm)

end Backend

/-- Along the reference backend and the vector widths from 64 to 8 lanes every backend is refined by all that come later: where it
answers, they do, and with the same array, also on coefficients outside every contract. So all agree with the reference backend
where nothing overflows in it, which is the case for the forward transform of coefficients below the modulus and for the inverse
transform of coefficients below `2 ^ 14`. -/
theorem transforms_refine_along_widths :
    Backend.chain.Pairwise Backend.RefinedBy ∧ (∀ b : Backend, Backend.reference.RefinedBy b) ∧
      (∀ x : Coeffs 256, (∀ t : Fin 256, (x.get t).toInt.natAbs < 3329) → ∃ y, ∀ b : Backend, b.forward x = .ok y) ∧
      ∀ x : Coeffs 256, (∀ t : Fin 256, (x.get t).toInt.natAbs < 16384) → ∃ y, ∀ b : Backend, b.inverse x = .ok y := by
  refine ⟨Backend.chain_pairwise_vectorPart.imp Backend.refinedBy_of_vectorPart_le,
    fun b => Backend.refinedBy_of_vectorPart_le fun n => Nat.zero_le _, ?_, ?_⟩
  · intro x hx
    exact ⟨Lane.forward x, fun b => (forward_spec b (atMost_iff.2 hx)).1⟩
  · intro x hx
    exact ⟨Lane.inverse x, fun b => (inverse_spec b (atMost_iff.2 hx)).1⟩

/-- The largest coefficients that the forward and the inverse transform admit: the scalar kernels answer, and the narrowest vectors
with the same array. Eight lanes refine 64. -/
theorem transforms_refine_on_largest :
    (∃ y, Backend.reference.forward (Vector.replicate 256 3328) = .ok y ∧
        (Backend.simd .eight).forward (Vector.replicate 256 3328) = .ok y) ∧
      (∃ y, Backend.reference.inverse (Vector.replicate 256 (-16383)) = .ok y ∧
        (Backend.simd .eight).inverse (Vector.replicate 256 (-16383)) = .ok y) ∧
      (Backend.simd .sixtyFour).RefinedBy (.simd .eight) := by
  obtain ⟨hchain, -, hforward, hinverse⟩ := transforms_refine_along_widths
  obtain ⟨y, hy⟩ := hforward (Vector.replicate 256 3328) fun t => by
    rw [get_eq_getElem, Vector.getElem_replicate]
    decide
  obtain ⟨z, hz⟩ := hinverse (Vector.replicate 256 (-16383)) fun t => by
    rw [get_eq_getElem, Vector.getElem_replicate]
    decide
  have hwidths := (List.pairwise_cons.1 (List.pairwise_cons.1 hchain).2).1
  exact ⟨⟨y, hy _, hy _⟩, ⟨z, hz _, hz _⟩, hwidths (.simd .eight) (by decide)⟩

end ModuleLattice
