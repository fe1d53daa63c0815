import ModuleLattice.Proofs.Codecs
import ModuleLattice.Proofs.Preimage

/-!
# Operations on congruent arguments

Two arrays are congruent if their coefficients are, place by place, in the same residue classes; they can hold very different
words. Every operation takes congruent arguments to congruent results, as far as it answers on both: `Alike R x y` says that
what `x` and `y` answer, if both do, is related by `R`, and its rules follow the way computations are put together. Reduction
and the encodings deliver the same on congruent arguments, because they deliver canonical residues or accept nothing else.
-/

namespace ModuleLattice

/-! ## Computations that answer alike -/

/-- What two computations answer, if both answer, is related. -/
def Alike {α β : Type} (R : α → β → Prop) (x : Except Fault α) (y : Except Fault β) : Prop :=
  ∀ a b, x = .ok a → y = .ok b → R a b

namespace Alike

variable {α β γ δ : Type} {R : α → β → Prop} {S : γ → δ → Prop}

protected theorem rfl {x : Except Fault α} : Alike Eq x x := by
  intro a b ha hb
  exact Except.ok.inj (ha.symm.trans hb)

theorem answer {a : α} {b : β} (h : R a b) : Alike R (.ok a) (.ok b) := by
  rintro _ _ ⟨⟩ ⟨⟩
  exact h

protected theorem bind {x : Except Fault α} {y : Except Fault β} {f : α → Except Fault γ} {g : β → Except Fault δ}
    (hxy : Alike R x y) (hfg : ∀ a b, R a b → Alike S (f a) (g b)) : Alike S (x >>= f) (y >>= g) := by
  intro c d hc hd
  obtain ⟨a, ha, hc⟩ := bind_eq_ok_iff.1 hc
  obtain ⟨b, hb, hd⟩ := bind_eq_ok_iff.1 hd
  exact hfg a b (hxy a b ha hb) c d hc hd

/-- What is done with the answers keeps them related. -/
protected theorem map {x : Except Fault α} {y : Except Fault β} {f : α → γ} {g : β → δ} (hxy : Alike R x y)
    (hfg : ∀ a b, R a b → S (f a) (g b)) : Alike S (x >>= fun a => pure (f a)) (y >>= fun b => pure (g b)) :=
  hxy.bind fun a b hab => answer (hfg a b hab)

/-- Behind two checks the ranges can be used. -/
theorem require {n m : Nat} {c : Contract} {x : Coeffs n} {y : Coeffs m} {f : Except Fault α} {g : Except Fault β}
    (h : c.Holds x → c.Holds y → Alike R f g) : Alike R (c.require x >>= fun _ => f) (c.require y >>= fun _ => g) := by
  intro a b ha hb
  obtain ⟨_, hx, ha⟩ := bind_eq_ok_iff.1 ha
  obtain ⟨_, hy, hb⟩ := bind_eq_ok_iff.1 hb
  exact h (Contract.require_eq_ok_iff.1 hx) (Contract.require_eq_ok_iff.1 hy) a b ha hb

/-- Loops whose steps answer alike. -/
protected theorem ofFnM {n : Nat} {f : Fin n → Except Fault α} {g : Fin n → Except Fault β}
    (h : ∀ i, Alike R (f i) (g i)) : Alike (fun v w => ∀ i : Fin n, R (v.get i) (w.get i)) (Vector.ofFnM f) (Vector.ofFnM g) := by
  intro v w hv hw i
  exact h i _ _ (ofFnM_eq_ok_iff.1 hv i) (ofFnM_eq_ok_iff.1 hw i)

/-- Loops whose steps answer the same. -/
theorem ofFnM_eq {n : Nat} {f g : Fin n → Except Fault α} (h : ∀ i, Alike Eq (f i) (g i)) :
    Alike Eq (Vector.ofFnM f) (Vector.ofFnM g) := by
  intro v w hv hw
  ext i hi
  exact Alike.ofFnM h v w hv hw ⟨i, hi⟩

end Alike

/-- The entries of two arrays are related in order exactly if they are place by place. -/
theorem forall₂_toList_iff {α β : Type} {R : α → β → Prop} {n : Nat} {v : Vector α n} {w : Vector β n} :
    List.Forall₂ R v.toList w.toList ↔ ∀ i : Fin n, R (v.get i) (w.get i) := by
  rw [List.forall₂_iff_get]
  constructor
  · intro h i
    have hi := h.2 i (by simp) (by simp)
    simpa using hi
  · intro h
    refine ⟨by simp, fun i hi _ => ?_⟩
    have hi' := h ⟨i, by simpa using hi⟩
    simpa using hi'

/-- Arrays that are related place by place stay so where both are set to related entries. -/
theorem get_set_related {α β : Type} {R : α → β → Prop} {n : Nat} {v : Vector α n} {w : Vector β n}
    (h : ∀ j : Fin n, R (v.get j) (w.get j)) (i : Fin n) {a : α} {b : β} (hab : R a b) (j : Fin n) :
    R ((v.set i a i.isLt).get j) ((w.set i b i.isLt).get j) := by
  have hj := h j
  simp only [get_eq_getElem, Vector.getElem_set] at hj ⊢
  split
  · exact hab
  · exact hj

/-! ## Congruent arrays -/

/-- Two arrays whose coefficients are congruent modulo 3329, place by place. -/
def Coeffs.Congruent {n : Nat} (x y : Coeffs n) : Prop := ∀ t : Fin n, Int.ModEq 3329 (x.get t).toInt (y.get t).toInt

namespace Coeffs

variable {n : Nat} {x y x' y' : Coeffs n}

theorem congruent_iff_forall : x.Congruent y ↔ ∀ t < n, residues x t = residues y t := by
  constructor
  · intro h t ht
    have hclass := residue_eq_iff.2 (h ⟨t, ht⟩)
    rwa [← entry_eq_get, ← entry_eq_get] at hclass
  · intro h t
    have hclass := h t t.isLt
    rw [residues, residues, entry_eq_get, entry_eq_get] at hclass
    exact residue_eq_iff.1 hclass

/-- Congruent arrays have the same classes, also beyond their end. -/
theorem Congruent.residues_eq (h : x.Congruent y) : residues x = residues y := by
  funext t
  by_cases ht : t < n
  · exact congruent_iff_forall.1 h t ht
  · simp [residues, entry, ht]

theorem Congruent.refl (x : Coeffs n) : x.Congruent x := fun _ => rfl

theorem Congruent.symm (h : x.Congruent y) : y.Congruent x := fun t => (h t).symm

theorem Congruent.trans {z : Coeffs n} (h : x.Congruent y) (h' : y.Congruent z) : x.Congruent z := fun t => (h t).trans (h' t)

/-- Canonical arrays that are congruent are the same. -/
theorem Congruent.eq_of_canonical (h : x.Congruent y) (hx : x.Canonical) (hy : y.Canonical) : x = y :=
  hx.eq_of_residues hy (congruent_iff_forall.1 h)

theorem Congruent.map_canonical (h : x.Congruent y) : x.map Lane.canonical = y.map Lane.canonical :=
  map_canonical_eq_iff.2 (congruent_iff_forall.1 h)

/-- Reduction stays in the classes. -/
theorem map_canonical_congruent (x : Coeffs n) : Coeffs.Congruent (x.map Lane.canonical) x :=
  congruent_iff_forall.2 fun _ ht => residues_map_canonical x ht

theorem Congruent.map_toMontgomery (h : x.Congruent y) :
    Coeffs.Congruent (x.map Lane.toMontgomery) (y.map Lane.toMontgomery) := by
  refine congruent_iff_forall.2 ?_
  intro t ht
  rw [residues_map_toMontgomery x ht, residues_map_toMontgomery y ht, h.residues_eq]

theorem Congruent.setCoeff (h : x.Congruent y) (i : Fin n) (c : Int16) : (x.setCoeff i c).Congruent (y.setCoeff i c) :=
  get_set_related (R := fun a b : Int16 => Int.ModEq 3329 a.toInt b.toInt) h i rfl

theorem add_alike (hx : x.Congruent x') (hy : y.Congruent y') : Alike Coeffs.Congruent (x.add y) (x'.add y') := by
  intro z z' hz hz'
  refine congruent_iff_forall.2 ?_
  intro t ht
  rw [residues_add hz ht, residues_add hz' ht, hx.residues_eq, hy.residues_eq]

theorem sub_alike (hx : x.Congruent x') (hy : y.Congruent y') : Alike Coeffs.Congruent (x.sub y) (x'.sub y') := by
  intro z z' hz hz'
  refine congruent_iff_forall.2 ?_
  intro t ht
  rw [residues_sub hz ht, residues_sub hz' ht, hx.residues_eq, hy.residues_eq]

end Coeffs

/-! ## The kernels -/

section

variable {x y : Coeffs 256}

/-- What an array represents is a matter of its classes. -/
theorem Coeffs.Congruent.represents (h : x.Congruent y) {q : Nat → ZMod 3329} (hx : Represents 7 q x) : Represents 7 q y := by
  unfold Represents at hx ⊢
  rwa [← h.residues_eq]

/-- The words of two transforms may differ, their classes do not: they are the remainders of the same polynomial. -/
theorem Coeffs.Congruent.forward (h : x.Congruent y) (hx : AtMost 3328 x) (hy : AtMost 3328 y) :
    (Lane.forward x).Congruent (Lane.forward y) := by
  have hxrep := represents_seven_iff.1 (forward_spec .reference hx).2.2
  have hyrep := represents_seven_iff.1 (forward_spec .reference hy).2.2
  refine Coeffs.congruent_iff_forall.2 ?_
  intro t ht
  rw [hxrep t ht, hyrep t ht, h.residues_eq]

/-- The inverse transforms of congruent arrays are congruent: the polynomial they represent is the same. -/
theorem Coeffs.Congruent.inverse (h : x.Congruent y) (hx : AtMost 16383 x) (hy : AtMost 16383 y) :
    (Lane.inverse x).Congruent (Lane.inverse y) := by
  have hxrep : Represents 7 (residues (NttPoly.preimage ⟨x⟩).coeffs) x := NttPoly.represents_iff.2 fun _ _ => rfl
  have hxback := ((inverse_spec .reference hx).2.2 _).1 hxrep
  have hyback := ((inverse_spec .reference hy).2.2 _).1 (h.represents hxrep)
  exact Coeffs.congruent_iff_forall.2 fun t ht => (hxback t ht).trans (hyback t ht).symm

theorem Coeffs.Congruent.mulCache (h : x.Congruent y) : (Lane.mulCache x).Congruent (Lane.mulCache y) := by
  refine Coeffs.congruent_iff_forall.2 ?_
  intro j hj
  rw [residues_mulCache x hj, residues_mulCache y hj, h.residues_eq]

end

/-- Two pairs of factors with congruent operands and congruent caches; the caches need not belong to the operands. -/
structure Factors.Congruent (f g : Factors) : Prop where
  left : f.left.Congruent g.left
  right : f.right.Congruent g.right
  cache : f.cache.Congruent g.cache

/-- The exact sums of congruent factors are congruent. -/
theorem cast_exactSum_congr {fs gs : List Factors} (h : List.Forall₂ Factors.Congruent fs gs) (t : Nat) :
    (exactSum fs t : ZMod 3329) = exactSum gs t := by
  induction h with
  | nil => rfl
  | cons hfg _ ih =>
    rw [exactSum_cons, exactSum_cons, Int.cast_add, Int.cast_add, ih, cast_values, cast_values, hfg.left.residues_eq,
      hfg.right.residues_eq, hfg.cache.residues_eq]

/-- Inner products of congruent factors in range are congruent. -/
theorem innerProduct_congruent {fs gs : List Factors} (h : List.Forall₂ Factors.Congruent fs gs) (hlen : fs.length ≤ 4)
    (hfs : ∀ f ∈ fs, f.InRange) (hgs : ∀ g ∈ gs, g.InRange) :
    (Lane.innerProduct fs).Congruent (Lane.innerProduct gs) := by
  refine Coeffs.congruent_iff_forall.2 ?_
  intro t ht
  apply eq_of_mul_radix_eq
  rw [(innerProduct_spec hfs hlen ht).2.2, (innerProduct_spec hgs (h.length_eq ▸ hlen) ht).2.2, cast_exactSum_congr h]

/-! ## The codecs -/

/-- Compression accepts canonical coefficients only, and congruent ones are then the same. -/
theorem Width.compress_alike (d : Width) {x y : Coeffs 256} (h : x.Congruent y) (buffer : Bytes) :
    Alike Eq (d.compress x buffer) (d.compress y buffer) := by
  unfold Width.compress
  refine Alike.bind (R := Eq) .rfl fun _ _ _ => .require fun hx hy => ?_
  obtain rfl := h.eq_of_canonical ((holds_iff_canonical rfl).1 hx) ((holds_iff_canonical rfl).1 hy)
  exact .rfl

/-- Congruent signed residues have the same unsigned form, so they have the same encoding. -/
theorem TwelveBit.encode_alike {x y : Coeffs 256} (h : x.Congruent y) : Alike Eq (encode x) (encode y) := by
  unfold encode
  refine .require fun hx hy => Alike.map (R := Eq) (.ofFnM_eq fun i => ?_) fun _ _ hresidues => by rw [hresidues]
  obtain ⟨hxok, hxvalue⟩ := liftSign_spec (hx i)
  obtain ⟨hyok, hyvalue⟩ := liftSign_spec (hy i)
  have hclass : (x.get i).toInt % 3329 = (y.get i).toInt % 3329 := h i
  rw [← hclass, ← hxvalue] at hyvalue
  rw [hxok, hyok, Int16.toInt.inj hyvalue]
  exact .rfl

/-! ## Polynomials -/

/-- Two polynomials with congruent coefficients. -/
def Poly.Congruent (p q : Poly) : Prop := p.coeffs.Congruent q.coeffs

/-- Two transformed polynomials with congruent coefficients. -/
def NttPoly.Congruent (p q : NttPoly) : Prop := p.coeffs.Congruent q.coeffs

/-- Two multiplication caches with congruent coefficients. -/
def MulCache.Congruent (c d : MulCache) : Prop := c.coeffs.Congruent d.coeffs

/-- Two transformed polynomials with caches, congruent in both parts. -/
structure CachedNttPoly.Congruent (p q : CachedNttPoly) : Prop where
  poly : p.poly.Congruent q.poly
  cache : p.cache.Congruent q.cache

namespace Poly

variable {p q p' q' : Poly} (b : Backend)

theorem ntt_alike (h : p.Congruent q) : Alike NttPoly.Congruent (p.ntt b) (q.ntt b) := by
  rw [Poly.ntt_eq, Poly.ntt_eq]
  exact .require fun hp hq => .answer (h.forward ((holds_iff_atMost rfl).1 hp) ((holds_iff_atMost rfl).1 hq))

theorem reduce_congr (h : p.Congruent q) : p.reduce b = q.reduce b := by
  rw [Poly.reduce_eq_lane, Poly.reduce_eq_lane, h.map_canonical]

theorem toMontgomery_alike (h : p.Congruent q) : Alike Poly.Congruent (p.toMontgomery b) (q.toMontgomery b) := by
  rw [Poly.toMontgomery, Poly.toMontgomery, Coeffs.toMontgomery_eq_lane, Coeffs.toMontgomery_eq_lane]
  exact .answer h.map_toMontgomery

theorem add_alike (hp : p.Congruent p') (hq : q.Congruent q') : Alike Poly.Congruent (p.add q) (p'.add q') :=
  .map (Coeffs.add_alike hp hq) fun _ _ h => h

theorem sub_alike (hp : p.Congruent p') (hq : q.Congruent q') : Alike Poly.Congruent (p.sub q) (p'.sub q') :=
  .map (Coeffs.sub_alike hp hq) fun _ _ h => h

theorem compress_alike (d : Width) (h : p.Congruent q) (buffer : Bytes) :
    Alike Eq (p.compress d buffer) (q.compress d buffer) :=
  d.compress_alike h buffer

theorem toMessage_alike (h : p.Congruent q) : Alike Eq p.toMessage q.toMessage := Poly.compress_alike .one h _

/-- Reduction delivers a polynomial of the same classes. -/
theorem reduce_spec (p : Poly) : ∃ r, p.reduce b = .ok r ∧ r.Congruent p := by
  rw [Poly.reduce_eq_lane]
  exact ⟨_, rfl, p.coeffs.map_canonical_congruent⟩

end Poly

namespace NttPoly

variable {p q p' q' : NttPoly} (b : Backend)

theorem nttInverse_alike (h : p.Congruent q) : Alike Poly.Congruent (p.nttInverse b) (q.nttInverse b) := by
  rw [NttPoly.nttInverse_eq, NttPoly.nttInverse_eq]
  exact .require fun hp hq => .answer (h.inverse ((holds_iff_atMost rfl).1 hp) ((holds_iff_atMost rfl).1 hq))

theorem reduce_congr (h : p.Congruent q) : p.reduce b = q.reduce b := by
  rw [NttPoly.reduce_eq_lane, NttPoly.reduce_eq_lane, h.map_canonical]

theorem toMontgomery_alike (h : p.Congruent q) : Alike NttPoly.Congruent (p.toMontgomery b) (q.toMontgomery b) := by
  rw [NttPoly.toMontgomery_eq_lane, NttPoly.toMontgomery_eq_lane]
  exact .answer h.map_toMontgomery

theorem add_alike (hp : p.Congruent p') (hq : q.Congruent q') : Alike NttPoly.Congruent (p.add q) (p'.add q') :=
  .map (Coeffs.add_alike hp hq) fun _ _ h => h

theorem mulCache_alike (h : p.Congruent q) : Alike MulCache.Congruent (p.mulCache b) (q.mulCache b) := by
  rw [NttPoly.mulCache_eq_lane, NttPoly.mulCache_eq_lane]
  exact .answer h.mulCache

theorem cached_alike (h : p.Congruent q) : Alike CachedNttPoly.Congruent (p.cached b) (q.cached b) := by
  rw [NttPoly.cached_eq_lane, NttPoly.cached_eq_lane]
  exact .answer ⟨h, h.mulCache⟩

/-- Products are congruent even if the caches do not belong to the right operands, as long as they are congruent. -/
theorem mulCached_alike (hp : p.Congruent p') {c c' : CachedNttPoly} (hc : c.Congruent c') :
    Alike NttPoly.Congruent (p.mulCached b c) (p'.mulCached b c') := by
  rw [NttPoly.mulCached_eq, NttPoly.mulCached_eq]
  refine .require fun hleft hleft' => .require fun hright hright' => .require fun hcache hcache' => .answer ?_
  refine innerProduct_congruent (.cons ⟨hp, hc.poly, hc.cache⟩ .nil) (by decide : 1 ≤ 4)
    (List.forall_mem_singleton.2 ⟨?_, ?_, ?_⟩) (List.forall_mem_singleton.2 ⟨?_, ?_, ?_⟩)
  all_goals exact (holds_iff_atMost rfl).1 ‹_›

theorem mul_alike (hp : p.Congruent p') (hq : q.Congruent q') : Alike NttPoly.Congruent (p.mul b q) (p'.mul b q') := by
  rw [NttPoly.mul_eq, NttPoly.mul_eq]
  exact NttPoly.mulCached_alike b hp ⟨hq, Coeffs.Congruent.mulCache hq⟩

theorem toBytes_alike (h : p.Congruent q) : Alike Eq p.toBytes q.toBytes := TwelveBit.encode_alike h

/-- Reduction delivers a transformed polynomial of the same classes. -/
theorem reduce_spec (p : NttPoly) : ∃ r, p.reduce b = .ok r ∧ r.Congruent p := by
  rw [NttPoly.reduce_eq_lane]
  exact ⟨_, rfl, p.coeffs.map_canonical_congruent⟩

end NttPoly

/-! ## Vectors -/

section

variable {k : Nat}

/-- Two vectors of congruent polynomials. -/
def PolyVec.Congruent (v w : PolyVec k) : Prop := ∀ i : Fin k, (v.polys.get i).Congruent (w.polys.get i)

/-- Two vectors of congruent transformed polynomials. -/
def NttVec.Congruent (v w : NttVec k) : Prop := ∀ i : Fin k, (v.polys.get i).Congruent (w.polys.get i)

/-- Two vectors of transformed polynomials with caches, congruent in all parts. -/
def CachedNttVec.Congruent (v w : CachedNttVec k) : Prop := ∀ i : Fin k, (v.polys.get i).Congruent (w.polys.get i)

theorem CachedNttVec.toNttVec_congruent {v w : CachedNttVec k} (h : v.Congruent w) : v.toNttVec.Congruent w.toNttVec := by
  intro i
  rw [CachedNttVec.toNttVec, CachedNttVec.toNttVec, get_map, get_map]
  exact (h i).poly

namespace PolyVec

variable {v w v' w' : PolyVec k} (b : Backend)

theorem ntt_alike (h : v.Congruent w) : Alike NttVec.Congruent (v.ntt b) (w.ntt b) :=
  .map (.ofFnM fun i => Poly.ntt_alike b (h i)) fun _ _ h => h

theorem reduce_congr (h : v.Congruent w) : v.reduce b = w.reduce b := by
  rw [PolyVec.reduce, PolyVec.reduce, funext fun i => Poly.reduce_congr b (h i)]

theorem add_alike (hv : v.Congruent v') (hw : w.Congruent w') : Alike PolyVec.Congruent (v.add w) (v'.add w') :=
  .map (.ofFnM fun i => Poly.add_alike (hv i) (hw i)) fun _ _ h => h

theorem sub_alike (hv : v.Congruent v') (hw : w.Congruent w') : Alike PolyVec.Congruent (v.sub w) (v'.sub w') :=
  .map (.ofFnM fun i => Poly.sub_alike (hv i) (hw i)) fun _ _ h => h

theorem compress_alike (d : Width) (h : v.Congruent w) (buffer : Bytes) :
    Alike Eq (v.compress d buffer) (w.compress d buffer) := by
  refine Alike.bind (R := Eq) .rfl fun _ _ _ => ?_
  exact .map (.ofFnM_eq fun i => Poly.compress_alike d (h i) _) fun _ _ h => congrArg (fun parts => parts.toList.flatten) h

/-- Nothing is left of a wiped vector. -/
theorem wipe_congruent (v w : PolyVec k) : v.wipe.Congruent w.wipe := by
  intro i
  rw [wipe, wipe, get_map, get_map]
  exact Coeffs.Congruent.refl _

theorem setPoly_congruent (h : v.Congruent w) (i : Fin k) {p q : Poly} (hp : p.Congruent q) :
    (v.setPoly i p).Congruent (w.setPoly i q) :=
  get_set_related (R := Poly.Congruent) h i hp

/-- Reduction delivers a vector of the same classes. -/
theorem reduce_spec (v : PolyVec k) : ∃ r, v.reduce b = .ok r ∧ r.Congruent v := by
  obtain ⟨polys, hloop, hcongruent⟩ := ofFnM_answers fun i : Fin k => Poly.reduce_spec b (v.polys.get i)
  rw [PolyVec.reduce, hloop, ok_bind]
  exact ⟨_, rfl, hcongruent⟩

end PolyVec

namespace NttVec

variable {v w v' w' : NttVec k} (b : Backend)

theorem nttInverse_alike (h : v.Congruent w) : Alike PolyVec.Congruent (v.nttInverse b) (w.nttInverse b) :=
  .map (.ofFnM fun i => NttPoly.nttInverse_alike b (h i)) fun _ _ h => h

theorem reduce_congr (h : v.Congruent w) : v.reduce b = w.reduce b := by
  rw [NttVec.reduce, NttVec.reduce, funext fun i => NttPoly.reduce_congr b (h i)]

theorem toMontgomery_alike (h : v.Congruent w) : Alike NttVec.Congruent (v.toMontgomery b) (w.toMontgomery b) :=
  .map (.ofFnM fun i => NttPoly.toMontgomery_alike b (h i)) fun _ _ h => h

theorem add_alike (hv : v.Congruent v') (hw : w.Congruent w') : Alike NttVec.Congruent (v.add w) (v'.add w') :=
  .map (.ofFnM fun i => NttPoly.add_alike (hv i) (hw i)) fun _ _ h => h

theorem cached_alike (h : v.Congruent w) : Alike CachedNttVec.Congruent (v.cached b) (w.cached b) :=
  .map (.ofFnM fun i => NttPoly.cached_alike b (h i)) fun _ _ h => h

theorem factors_congruent (hv : v.Congruent v') {c c' : CachedNttVec k} (hc : c.Congruent c') :
    List.Forall₂ Factors.Congruent (v.factors c).toList (v'.factors c').toList := by
  refine forall₂_toList_iff.2 ?_
  intro i
  rw [factors, factors, get_ofFn, get_ofFn]
  exact ⟨hv i, (hc i).poly, (hc i).cache⟩

theorem innerProductCached_alike (hk : ProductRank k) (hv : v.Congruent v') {c c' : CachedNttVec k} (hc : c.Congruent c') :
    Alike NttPoly.Congruent (v.innerProductCached b c) (v'.innerProductCached b c') := by
  rw [NttVec.innerProductCached_eq b hk.2, NttVec.innerProductCached_eq b hk.2]
  intro r r' hr hr'
  obtain ⟨_, hchecks, hr⟩ := bind_eq_ok_iff.1 hr
  obtain ⟨_, hchecks', hr'⟩ := bind_eq_ok_iff.1 hr'
  obtain rfl := Except.ok.inj hr
  obtain rfl := Except.ok.inj hr'
  exact innerProduct_congruent (factors_congruent hv hc) (by simpa using hk.2) (forM_requireFactors_eq_ok_iff.1 hchecks)
    (forM_requireFactors_eq_ok_iff.1 hchecks')

theorem innerProduct_alike (hk : ProductRank k) (hv : v.Congruent v') (hw : w.Congruent w') :
    Alike NttPoly.Congruent (v.innerProduct b w) (v'.innerProduct b w') :=
  (NttVec.cached_alike b hw).bind fun _ _ hc => NttVec.innerProductCached_alike b hk hv hc

theorem toBytes_alike (h : v.Congruent w) (buffer : Bytes) : Alike Eq (v.toBytes buffer) (w.toBytes buffer) := by
  refine Alike.bind (R := Eq) .rfl fun _ _ _ => ?_
  exact .map (.ofFnM_eq fun i => NttPoly.toBytes_alike (h i)) fun _ _ h => congrArg (fun parts => parts.flatten.toList) h

theorem setPoly_congruent (h : v.Congruent w) (i : Fin k) {p q : NttPoly} (hp : p.Congruent q) :
    (v.setPoly i p).Congruent (w.setPoly i q) :=
  get_set_related (R := NttPoly.Congruent) h i hp

/-- Reduction delivers a vector of the same classes. -/
theorem reduce_spec (v : NttVec k) : ∃ r, v.reduce b = .ok r ∧ r.Congruent v := by
  obtain ⟨polys, hloop, hcongruent⟩ := ofFnM_answers fun i : Fin k => NttPoly.reduce_spec b (v.polys.get i)
  rw [NttVec.reduce, hloop, ok_bind]
  exact ⟨_, rfl, hcongruent⟩

end NttVec

end

end ModuleLattice
