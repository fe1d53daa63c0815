import ModuleLattice.Proofs.BackendIndependence
import ModuleLattice.Proofs.Congruence
import Mathlib.Data.Option.Basic

/-!
# Congruent machines

Two machines are congruent if their registers hold congruent values, whichever backends they run on. What is proved of single
operations is carried over to values, to answers and to machines here: an operation on congruent values has answers that agree
unless one of them is a fault (`Operation.apply_alike`), and a step on congruent machines leaves congruent machines behind
(`Machine.step_congruent`). Bytes agree only if they are the same.
-/

namespace ModuleLattice

/-! ## Values and answers -/

/-- Two values of one type with congruent coefficients in all parts. What has no coefficients is the same. -/
inductive Value.Congruent : Value → Value → Prop
  | poly {p q : Poly} (h : p.Congruent q) : Congruent (.poly p) (.poly q)
  | nttPoly {p q : NttPoly} (h : p.Congruent q) : Congruent (.nttPoly p) (.nttPoly q)
  | cachedNttPoly {p q : CachedNttPoly} (h : p.Congruent q) : Congruent (.cachedNttPoly p) (.cachedNttPoly q)
  | polyVec {k : Nat} {v w : PolyVec k} (h : v.Congruent w) : Congruent (.polyVec v) (.polyVec w)
  | nttVec {k : Nat} {v w : NttVec k} (h : v.Congruent w) : Congruent (.nttVec v) (.nttVec w)
  | cachedNttVec {k : Nat} {v w : CachedNttVec k} (h : v.Congruent w) : Congruent (.cachedNttVec v) (.cachedNttVec w)
  | reader (r : Shake.Reader) : Congruent (.reader r) (.reader r)
  | batchReader (r : Shake.BatchReader) : Congruent (.batchReader r) (.batchReader r)

/-- Two answers that are no faults and agree: values and multiplication caches are congruent, everything else is the same. -/
inductive Answer.Congruent : Answer → Answer → Prop
  | value {v w : Value} (h : v.Congruent w) : Congruent (.value v) (.value w)
  | batch {vs ws : Vector Value 4} (h : ∀ i : Fin 4, (vs.get i).Congruent (ws.get i)) : Congruent (.batch vs) (.batch ws)
  | bytes (b : Bytes) : Congruent (.bytes b) (.bytes b)
  | byteBatch (bs : Vector Bytes 4) : Congruent (.byteBatch bs) (.byteBatch bs)
  | mulCache {c d : MulCache} (h : c.Congruent d) : Congruent (.mulCache c) (.mulCache d)
  | selected (b : Backend) : Congruent (.selected b) (.selected b)
  | unfinished : Congruent .unfinished .unfinished
  | undefined : Congruent .undefined .undefined

/-- The answer is no fault. -/
def Answer.Sound (a : Answer) : Prop := ∀ e : Fault, a ≠ .fault e

theorem Answer.sound_bytes (bytes : Bytes) : (Answer.bytes bytes).Sound := nofun

theorem Answer.sound_value (v : Value) : (Answer.value v).Sound := nofun

/-- Two answers agree unless one of them is a fault. -/
def Answer.Alike (a b : Answer) : Prop := a.Sound → b.Sound → a.Congruent b

namespace Value.Congruent

theorem refl : (v : Value) → v.Congruent v
  | .poly p => .poly (Coeffs.Congruent.refl p.coeffs)
  | .nttPoly p => .nttPoly (Coeffs.Congruent.refl p.coeffs)
  | .cachedNttPoly _ => .cachedNttPoly ⟨Coeffs.Congruent.refl _, Coeffs.Congruent.refl _⟩
  | .polyVec _ => .polyVec fun _ => Coeffs.Congruent.refl _
  | .nttVec _ => .nttVec fun _ => Coeffs.Congruent.refl _
  | .cachedNttVec _ => .cachedNttVec fun _ => ⟨Coeffs.Congruent.refl _, Coeffs.Congruent.refl _⟩
  | .reader r => .reader r
  | .batchReader r => .batchReader r

theorem symm {v w : Value} : v.Congruent w → w.Congruent v
  | .poly h => .poly (Coeffs.Congruent.symm h)
  | .nttPoly h => .nttPoly (Coeffs.Congruent.symm h)
  | .cachedNttPoly h => .cachedNttPoly ⟨Coeffs.Congruent.symm h.poly, Coeffs.Congruent.symm h.cache⟩
  | .polyVec h => .polyVec fun i => Coeffs.Congruent.symm (h i)
  | .nttVec h => .nttVec fun i => Coeffs.Congruent.symm (h i)
  | .cachedNttVec h => .cachedNttVec fun i => ⟨Coeffs.Congruent.symm (h i).poly, Coeffs.Congruent.symm (h i).cache⟩
  | .reader r => .reader r
  | .batchReader r => .batchReader r

theorem trans {u v w : Value} : u.Congruent v → v.Congruent w → u.Congruent w
  | .poly h, .poly h' => .poly (Coeffs.Congruent.trans h h')
  | .nttPoly h, .nttPoly h' => .nttPoly (Coeffs.Congruent.trans h h')
  | .cachedNttPoly h, .cachedNttPoly h' =>
    .cachedNttPoly ⟨Coeffs.Congruent.trans h.poly h'.poly, Coeffs.Congruent.trans h.cache h'.cache⟩
  | .polyVec h, .polyVec h' => .polyVec fun i => Coeffs.Congruent.trans (h i) (h' i)
  | .nttVec h, .nttVec h' => .nttVec fun i => Coeffs.Congruent.trans (h i) (h' i)
  | .cachedNttVec h, .cachedNttVec h' =>
    .cachedNttVec fun i =>
      ⟨Coeffs.Congruent.trans (h i).poly (h' i).poly, Coeffs.Congruent.trans (h i).cache (h' i).cache⟩
  | .reader r, .reader _ => .reader r
  | .batchReader r, .batchReader _ => .batchReader r

theorem rel_poly {v w : Value} : v.Congruent w → Option.Rel Poly.Congruent v.poly? w.poly?
  | .poly h => .some h
  | .nttPoly _ | .cachedNttPoly _ | .polyVec _ | .nttVec _ | .cachedNttVec _ | .reader _ | .batchReader _ => .none

theorem rel_nttPoly {v w : Value} : v.Congruent w → Option.Rel NttPoly.Congruent v.nttPoly? w.nttPoly?
  | .nttPoly h => .some h
  | .poly _ | .cachedNttPoly _ | .polyVec _ | .nttVec _ | .cachedNttVec _ | .reader _ | .batchReader _ => .none

/-- Lists of related polynomials of one form make congruent vectors. Their ranks are the same, but not by definition. -/
theorem of_forall₂ {α : Type} {R : α → α → Prop} (vec : {k : Nat} → Vector α k → Value)
    (hvec : ∀ {k : Nat} {v w : Vector α k}, (∀ i : Fin k, R (v.get i) (w.get i)) → (vec v).Congruent (vec w)) {as bs : List α}
    (h : List.Forall₂ R as bs) : (vec as.toArray.toVector).Congruent (vec bs.toArray.toVector) := by
  have hranks : ∀ {k l : Nat} (v : Vector α k) (w : Vector α l), k = l → List.Forall₂ R v.toList w.toList →
      (vec v).Congruent (vec w) := by
    rintro k _ v w rfl hvw
    exact hvec (forall₂_toList_iff.1 hvw)
  exact hranks _ _ h.length_eq h

end Value.Congruent

namespace Answer

theorem Congruent.refl : {a : Answer} → a.Sound → a.Congruent a
  | .value v, _ => .value (.refl v)
  | .batch _, _ => .batch fun _ => .refl _
  | .bytes b, _ => .bytes b
  | .byteBatch bs, _ => .byteBatch bs
  | .mulCache _, _ => .mulCache (Coeffs.Congruent.refl _)
  | .selected b, _ => .selected b
  | .fault e, h => absurd rfl (h e)
  | .unfinished, _ => .unfinished
  | .undefined, _ => .undefined

namespace Alike

variable {α : Type} {R : α → α → Prop} {x y : Except Fault α}

protected theorem refl (a : Answer) : a.Alike a := fun ha _ => .refl ha

/-- Computations that answer alike, with answers delivered alike. -/
theorem ofExcept {deliver : α → Answer} (h : ModuleLattice.Alike R x y)
    (hdeliver : ∀ a b, R a b → (deliver a).Congruent (deliver b)) :
    (Answer.ofExcept deliver x).Alike (.ofExcept deliver y) := by
  intro hx hy
  cases x with
  | error e => exact absurd rfl (hx e)
  | ok a =>
    cases y with
    | error e => exact absurd rfl (hy e)
    | ok b => exact hdeliver a b (h a b rfl rfl)

theorem ofValue {wrap : α → Value} (h : ModuleLattice.Alike R x y)
    (hwrap : ∀ {a b}, R a b → (wrap a).Congruent (wrap b)) : (Answer.ofValue wrap x).Alike (.ofValue wrap y) :=
  .ofExcept h fun _ _ hab => .value (hwrap hab)

/-- An operation that is not defined on all arguments. -/
protected theorem dite {c : Prop} [Decidable c] {f g : c → Answer} (h : ∀ hc : c, (f hc).Alike (g hc)) :
    (if hc : c then f hc else .undefined).Alike (if hc : c then g hc else .undefined) := by
  by_cases hc : c
  · rw [dif_pos hc, dif_pos hc]
    exact h hc
  · rw [dif_neg hc, dif_neg hc]
    exact .refl .undefined

protected theorem ite {c : Prop} [Decidable c] {f g : Answer} (h : c → f.Alike g) :
    (if c then f else .undefined).Alike (if c then g else .undefined) := Alike.dite h

/-- Computations that answer the same have the same answer, if neither stops. -/
theorem ofExcept_eq {deliver : α → Answer} (h : ModuleLattice.Alike Eq x y) (hdeliver : ∀ a, (deliver a).Sound) :
    (Answer.ofExcept deliver x).Alike (.ofExcept deliver y) :=
  .ofExcept h fun a _ hab => hab ▸ .refl (hdeliver a)

end Alike

end Answer

/-! ## Operations -/

namespace Operation

variable {v w v' w' : Value} (setting : Setting) (b : Backend)

/-- No operation takes more than two values. -/
theorem apply_of_three (operation : Operation) (u v w : Value) (vs : List Value) :
    operation.apply setting b (u :: v :: w :: vs) = .undefined := by
  cases operation <;> cases u <;> first | rfl | (cases v <;> rfl)

/-- A reduction delivers a value of the same classes, if it is defined at all. -/
theorem apply_reduce_cases (v : Value) :
    (∃ w, Operation.reduce.apply setting b [v] = .value w ∧ w.Congruent v) ∨
      Operation.reduce.apply setting b [v] = .undefined := by
  cases v with
  | poly p =>
    obtain ⟨r, hr, hcongruent⟩ := Poly.reduce_spec b p
    exact .inl ⟨.poly r, congrArg (Answer.ofValue .poly) hr, .poly hcongruent⟩
  | nttPoly p =>
    obtain ⟨r, hr, hcongruent⟩ := NttPoly.reduce_spec b p
    exact .inl ⟨.nttPoly r, congrArg (Answer.ofValue .nttPoly) hr, .nttPoly hcongruent⟩
  | polyVec v =>
    obtain ⟨r, hr, hcongruent⟩ := PolyVec.reduce_spec b v
    exact .inl ⟨.polyVec r, congrArg (Answer.ofValue .polyVec) hr, .polyVec hcongruent⟩
  | nttVec v =>
    obtain ⟨r, hr, hcongruent⟩ := NttVec.reduce_spec b v
    exact .inl ⟨.nttVec r, congrArg (Answer.ofValue .nttVec) hr, .nttVec hcongruent⟩
  | _ => exact .inr rfl

/-- A reduction delivers the same on congruent values. -/
theorem apply_reduce_congr (h : v.Congruent w) :
    Operation.reduce.apply setting b [v] = Operation.reduce.apply setting b [w] := by
  cases h with
  | poly h => exact congrArg (Answer.ofValue .poly) (Poly.reduce_congr b h)
  | nttPoly h => exact congrArg (Answer.ofValue .nttPoly) (NttPoly.reduce_congr b h)
  | polyVec h => exact congrArg (Answer.ofValue .polyVec) (PolyVec.reduce_congr b h)
  | nttVec h => exact congrArg (Answer.ofValue .nttVec) (NttVec.reduce_congr b h)
  | _ => rfl

/-- An operation on one value. -/
theorem apply_one_alike (operation : Operation) (h : v.Congruent w) :
    (operation.apply setting b [v]).Alike (operation.apply setting b [w]) := by
  cases operation with
  | copy => exact fun _ _ => .value h
  | ntt =>
    cases h with
    | poly h => exact .ofValue (Poly.ntt_alike b h) .nttPoly
    | polyVec h => exact .ofValue (PolyVec.ntt_alike b h) .nttVec
    | _ => exact .refl .undefined
  | nttInverse =>
    cases h with
    | nttPoly h => exact .ofValue (NttPoly.nttInverse_alike b h) .poly
    | nttVec h => exact .ofValue (NttVec.nttInverse_alike b h) .polyVec
    | _ => exact .refl .undefined
  | reduce => exact apply_reduce_congr setting b h ▸ .refl _
  | toMontgomery =>
    cases h with
    | poly h => exact .ofValue (Poly.toMontgomery_alike b h) .poly
    | nttPoly h => exact .ofValue (NttPoly.toMontgomery_alike b h) .nttPoly
    | nttVec h => exact .ofValue (NttVec.toMontgomery_alike b h) .nttVec
    | _ => exact .refl .undefined
  | wipe =>
    cases h with
    | poly h => exact .refl _
    | polyVec h => exact fun _ _ => .value (.polyVec (PolyVec.wipe_congruent _ _))
    | _ => exact .refl .undefined
  | setCoeff i c =>
    cases h with
    | poly h => exact fun _ _ => .value (.poly (Coeffs.Congruent.setCoeff h i c))
    | nttPoly h => exact fun _ _ => .value (.nttPoly (Coeffs.Congruent.setCoeff h i c))
    | _ => exact .refl .undefined
  | getPoly i =>
    cases h with
    | polyVec h => exact .dite fun hi _ _ => .value (.poly (h ⟨i, hi⟩))
    | nttVec h => exact .dite fun hi _ _ => .value (.nttPoly (h ⟨i, hi⟩))
    | cachedNttVec h => exact .dite fun hi _ _ => .value (.cachedNttPoly (h ⟨i, hi⟩))
    | _ => exact .refl .undefined
  | mulCache =>
    cases h with
    | nttPoly h => exact .ofExcept (NttPoly.mulCache_alike b h) fun _ _ hc => .mulCache hc
    | cachedNttPoly h => exact fun _ _ => .mulCache h.cache
    | _ => exact .refl .undefined
  | cached =>
    cases h with
    | nttPoly h => exact .ofValue (NttPoly.cached_alike b h) .cachedNttPoly
    | nttVec h => exact .ofValue (NttVec.cached_alike b h) .cachedNttVec
    | _ => exact .refl .undefined
  | uncached =>
    cases h with
    | cachedNttPoly h => exact fun _ _ => .value (.nttPoly h.poly)
    | nttPoly h => exact .ofValue (NttPoly.cached_alike b h) fun hc => .nttPoly hc.poly
    | cachedNttVec h => exact fun _ _ => .value (.nttVec (CachedNttVec.toNttVec_congruent h))
    | nttVec h => exact .ofValue (NttVec.cached_alike b h) fun hc => .nttVec (CachedNttVec.toNttVec_congruent hc)
    | _ => exact .refl .undefined
  | compress d buffer =>
    cases h with
    | poly h => exact .ofExcept_eq (Poly.compress_alike d h _) Answer.sound_bytes
    | polyVec h => exact .ofExcept_eq (PolyVec.compress_alike d h _) Answer.sound_bytes
    | _ => exact .refl .undefined
  | toMessage =>
    cases h with
    | poly h =>
      -- Stated first: the answer expected does not show which computation it is of.
      have hmessage := Answer.Alike.ofExcept_eq (Poly.toMessage_alike h) Answer.sound_bytes
      exact hmessage
    | _ => exact .refl .undefined
  | toBytes buffer =>
    cases h with
    | nttPoly h =>
      have hencoding := Answer.Alike.ofExcept_eq (NttPoly.toBytes_alike h) fun bytes => Answer.sound_bytes bytes.toList
      exact hencoding
    | nttVec h => exact .ofExcept_eq (NttVec.toBytes_alike h _) Answer.sound_bytes
    | _ => exact .refl .undefined
  | _ => cases h <;> exact .refl .undefined

/-- An operation on two vectors, if their ranks allow it. -/
theorem onRank_alike {V : Nat → Type} {R : (k : Nat) → V k → V k → Prop} {k l : Nat} {v v' : V k} {w w' : V l}
    {f : V k → V k → Answer} (hv : R k v v') (hw : R l w w')
    (hf : ∀ {v v' w w' : V k}, R k v v' → R k w w' → (f v w).Alike (f v' w')) :
    (onRank v w f).Alike (onRank v' w' f) := by
  refine .dite fun h => ?_
  subst h
  exact hf hv hw

/-- An operation on two values. -/
theorem apply_two_alike (operation : Operation) (h : v.Congruent w) (h' : v'.Congruent w') :
    (operation.apply setting b [v, v']).Alike (operation.apply setting b [w, w']) := by
  cases operation with
  | add =>
    cases h with
    | poly h =>
      cases h' with
      | poly h' => exact .ofValue (Poly.add_alike h h') .poly
      | _ => exact .refl .undefined
    | nttPoly h =>
      cases h' with
      | nttPoly h' => exact .ofValue (NttPoly.add_alike h h') .nttPoly
      | _ => exact .refl .undefined
    | polyVec h =>
      cases h' with
      | polyVec h' => exact onRank_alike h h' fun h h' => .ofValue (PolyVec.add_alike h h') .polyVec
      | _ => exact .refl .undefined
    | nttVec h =>
      cases h' with
      | nttVec h' => exact onRank_alike h h' fun h h' => .ofValue (NttVec.add_alike h h') .nttVec
      | _ => exact .refl .undefined
    | _ => exact .refl .undefined
  | sub =>
    cases h with
    | poly h =>
      cases h' with
      | poly h' => exact .ofValue (Poly.sub_alike h h') .poly
      | _ => exact .refl .undefined
    | polyVec h =>
      cases h' with
      | polyVec h' => exact onRank_alike h h' fun h h' => .ofValue (PolyVec.sub_alike h h') .polyVec
      | _ => exact .refl .undefined
    | _ => exact .refl .undefined
  | setPoly i =>
    cases h with
    | polyVec h =>
      cases h' with
      | poly h' => exact .dite fun _ _ _ => .value (.polyVec (PolyVec.setPoly_congruent h _ h'))
      | _ => exact .refl .undefined
    | nttVec h =>
      cases h' with
      | nttPoly h' => exact .dite fun _ _ _ => .value (.nttVec (NttVec.setPoly_congruent h _ h'))
      | _ => exact .refl .undefined
    | _ => exact .refl .undefined
  | mul =>
    cases h with
    | nttPoly h =>
      cases h' with
      | nttPoly h' => exact .ofValue (NttPoly.mul_alike b h h') .nttPoly
      | _ => exact .refl .undefined
    | _ => exact .refl .undefined
  | mulCached =>
    cases h with
    | nttPoly h =>
      cases h' with
      | cachedNttPoly h' => exact .ofValue (NttPoly.mulCached_alike b h h') .nttPoly
      | nttPoly h' =>
        exact .ofValue ((NttPoly.cached_alike b h').bind fun _ _ hc => NttPoly.mulCached_alike b h hc) .nttPoly
      | _ => exact .refl .undefined
    | _ => exact .refl .undefined
  | innerProduct =>
    cases h with
    | nttVec h =>
      cases h' with
      | nttVec h' =>
        exact .ite fun hk => onRank_alike h h' fun h h' => .ofValue (NttVec.innerProduct_alike b hk h h') .nttPoly
      | _ => exact .refl .undefined
    | _ => exact .refl .undefined
  | innerProductCached =>
    cases h with
    | nttVec h =>
      cases h' with
      | cachedNttVec h' =>
        refine .dite fun hk => ?_
        obtain ⟨hk, rfl⟩ := hk
        exact .ofValue (NttVec.innerProductCached_alike b hk h h') .nttPoly
      | nttVec h' =>
        refine .ite fun hk => onRank_alike h h' fun h h' => .ofValue ?_ .nttPoly
        exact (NttVec.cached_alike b h').bind fun _ _ hc => NttVec.innerProductCached_alike b hk h hc
      | _ => exact .refl .undefined
    | _ => exact .refl .undefined
  | _ => cases h <;> exact .refl .undefined

/-- An operation takes congruent values to answers that agree, on any two backends. -/
theorem apply_alike (b' : Backend) (operation : Operation) {vs ws : List Value} (h : List.Forall₂ Value.Congruent vs ws) :
    (operation.apply setting b vs).Alike (operation.apply setting b' ws) := by
  rw [Operation.apply_eq setting b' b]
  cases h with
  | nil => exact .refl _
  | cons hu h =>
    cases h with
    | nil => exact apply_one_alike setting b operation hu
    | cons hv h =>
      cases h with
      | nil => exact apply_two_alike setting b operation hu hv
      | cons hw h =>
        rw [apply_of_three, apply_of_three]
        exact .refl .undefined

/-- A reduction delivers the same on congruent arguments, on any two backends, also where it delivers nothing. -/
theorem apply_reduce_eq (b' : Backend) {vs ws : List Value} (h : List.Forall₂ Value.Congruent vs ws) :
    Operation.reduce.apply setting b vs = Operation.reduce.apply setting b' ws := by
  rw [Operation.apply_eq setting b' b]
  cases h with
  | nil => rfl
  | cons hu h =>
    cases h with
    | nil => exact apply_reduce_congr setting b hu
    | cons hv h => cases hu <;> rfl

end Operation

/-! ## Options and lists of options -/

section

variable {α β γ δ : Type} {R : α → β → Prop} {S : γ → δ → Prop}

theorem rel_symm {x : Option α} {y : Option β} {R' : β → α → Prop} (hsymm : ∀ a b, R a b → R' b a) :
    Option.Rel R x y → Option.Rel R' y x
  | .some h => .some (hsymm _ _ h)
  | .none => .none

theorem rel_trans {R : α → α → Prop} {x y z : Option α} (htrans : ∀ a b c, R a b → R b c → R a c) :
    Option.Rel R x y → Option.Rel R y z → Option.Rel R x z
  | .some h, .some h' => .some (htrans _ _ _ h h')
  | .none, .none => .none

theorem rel_bind {x : Option α} {y : Option β} {f : α → Option γ} {g : β → Option δ}
    (hfg : ∀ a b, R a b → Option.Rel S (f a) (g b)) : Option.Rel R x y → Option.Rel S (x >>= f) (y >>= g)
  | .some hab => hfg _ _ hab
  | .none => .none

theorem rel_mapM {f : α → Option γ} {g : β → Option δ} (hfg : ∀ a b, R a b → Option.Rel S (f a) (g b))
    {as : List α} {bs : List β} (h : List.Forall₂ R as bs) : Option.Rel (List.Forall₂ S) (as.mapM f) (bs.mapM g) := by
  induction h with
  | nil => exact .some .nil
  | cons hab _ ih =>
    rw [List.mapM_cons, List.mapM_cons]
    exact rel_bind (fun c d hcd => rel_bind (fun cs ds hcds => .some (.cons hcd hcds)) ih) (hfg _ _ hab)

theorem rel_mapM_same {f : α → Option γ} {g : α → Option δ} (hfg : ∀ a, Option.Rel S (f a) (g a)) (as : List α) :
    Option.Rel (List.Forall₂ S) (as.mapM f) (as.mapM g) :=
  rel_mapM (R := Eq) (fun a _ hab => hab ▸ hfg a) (List.forall₂_refl as)

end

/-! ## Machines -/

namespace Machine

/-- Two machines whose registers hold congruent values. The backends they run on may differ. -/
def Congruent (m m' : Machine) : Prop := ∀ name, Option.Rel Value.Congruent (m.lookup name) (m'.lookup name)

variable {m m' m'' : Machine}

theorem Congruent.refl (m : Machine) : m.Congruent m := by
  intro name
  cases m.lookup name with
  | none => exact .none
  | some v => exact .some (.refl v)

theorem Congruent.symm (h : m.Congruent m') : m'.Congruent m :=
  fun name => rel_symm (fun _ _ hv => hv.symm) (h name)

theorem Congruent.trans (h : m.Congruent m') (h' : m'.Congruent m'') : m.Congruent m'' :=
  fun name => rel_trans (fun _ _ _ hv hv' => hv.trans hv') (h name) (h' name)

theorem Congruent.store (h : m.Congruent m') (name : String) {v w : Value} (hv : v.Congruent w) :
    (m.store name v).Congruent (m'.store name w) := by
  intro other
  rw [lookup_store, lookup_store]
  split
  · exact .some hv
  · exact h other

theorem Congruent.storeAll (names : List String) {vs ws : List Value} (hvs : List.Forall₂ Value.Congruent vs ws)
    (h : m.Congruent m') : (m.storeAll names vs).Congruent (m'.storeAll names ws) := by
  induction names generalizing m m' vs ws with
  | nil => exact h
  | cons name names ih =>
    cases hvs with
    | nil => exact h
    | cons hv hvs => exact ih hvs (h.store name hv)

theorem Congruent.keep (h : m.Congruent m') (destination : Destination) {a a' : Answer} (ha : a.Congruent a') :
    (m.keep destination a).Congruent (m'.keep destination a') := by
  cases ha with
  | value hv =>
    obtain ⟨_ | name, batch⟩ := destination
    · exact h
    · exact h.store name hv
  | batch hvs => exact h.storeAll destination.batch (forall₂_toList_iff.2 hvs)
  | _ => exact h

theorem gather_congruent {vs ws : List Value} (h : List.Forall₂ Value.Congruent vs ws) :
    Option.Rel Value.Congruent (gather vs) (gather ws) := by
  have hpolys := rel_mapM (fun _ _ hv => Value.Congruent.rel_poly hv) h
  have hntts := rel_mapM (fun _ _ hv => Value.Congruent.rel_nttPoly hv) h
  unfold gather
  generalize vs.mapM Value.poly? = ps, ws.mapM Value.poly? = qs at hpolys ⊢
  generalize vs.mapM Value.nttPoly? = ps', ws.mapM Value.nttPoly? = qs' at hntts ⊢
  cases hpolys with
  | some hps => exact .some (.of_forall₂ (fun v => .polyVec ⟨v⟩) (fun h => .polyVec h) hps)
  | none =>
    cases hntts with
    | some hps => exact .some (.of_forall₂ (fun v => .nttVec ⟨v⟩) (fun h => .nttVec h) hps)
    | none => exact .none

theorem read_congruent (h : m.Congruent m') : (s : Source) → Option.Rel Value.Congruent (m.read s) (m'.read s)
  | .value v => .some (.refl v)
  | .register name => h name

theorem resolve_congruent (h : m.Congruent m') : (o : Operand) → Option.Rel Value.Congruent (m.resolve o) (m'.resolve o)
  | .single s => read_congruent h s
  | .gathered parts => rel_bind (fun _ _ => gather_congruent) (rel_mapM_same (read_congruent h) parts)

/-- A machine keeps a single value in the one register that is named for it. -/
theorem keep_value (m : Machine) {destination : Destination} {name : String} (h : destination.single = some name) (v : Value) :
    m.keep destination (.value v) = m.store name v := by
  rw [keep, h]
  rfl

/-! ### Steps -/

variable {setting : Setting}

/-- A step on congruent machines has congruent answers and leaves congruent machines behind, unless one of them has a fault for
an answer. -/
theorem step_congruent (h : m.Congruent m') (s : Step) (hm : (m.step setting s).1.Sound) (hm' : (m'.step setting s).1.Sound) :
    (m.step setting s).1.Congruent (m'.step setting s).1 ∧ (m.step setting s).2.Congruent (m'.step setting s).2 := by
  cases s with
  | perform operation operands destination =>
    have harguments := rel_mapM_same (resolve_congruent h) operands
    suffices hanswers : (m.step setting (.perform operation operands destination)).1.Congruent
        (m'.step setting (.perform operation operands destination)).1 from ⟨hanswers, h.keep destination hanswers⟩
    simp only [step] at hm hm' ⊢
    generalize operands.mapM m.resolve = vs, operands.mapM m'.resolve = ws at harguments hm hm' ⊢
    cases harguments with
    | some hvs => exact operation.apply_alike setting m.backend m'.backend hvs hm hm'
    | none => exact .undefined
  | squeeze register =>
    have hreader := h register
    simp only [step]
    generalize m.lookup register = v, m'.lookup register = w at hreader ⊢
    cases hreader with
    | none => exact ⟨.undefined, h⟩
    | some hvw =>
      cases hvw with
      | reader r => exact ⟨.bytes _, h.store register (.reader _)⟩
      | batchReader r => exact ⟨.byteBatch _, h.store register (.batchReader _)⟩
      | _ => exact ⟨.undefined, h⟩
  | select backend => exact ⟨.selected backend, h⟩

end Machine

end ModuleLattice
