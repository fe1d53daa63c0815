import ModuleLattice.Proofs.CheckedWord
import Mathlib.Data.List.FinRange

/-!
# The checks that stop an operation

`StopsOnlyAt x checks` says all there is to say about how the computation `x` can fail: it stops exactly if one of the checks
fails, and then with the fault of the first one that does. The lemmas follow the way computations are put together: a check on
its own, two computations in sequence, a loop over an array or a list. With them the checks of an operation are read off its
parts, in the order in which they are made, and a part that cannot fail adds none.
-/

namespace ModuleLattice

/-- A check on the arguments of an operation: when it fails, and the fault it then reports. -/
structure EntryCheck where
  fails : Prop
  fault : Fault

/-- The fault of the first check that fails. -/
def FirstFailure : List EntryCheck → Fault → Prop
  | [], _ => False
  | c :: cs, e => c.fails ∧ e = c.fault ∨ ¬c.fails ∧ FirstFailure cs e

/-- The computation stops with the fault of the first check that fails, and on nothing else. -/
def StopsOnlyAt {α : Type} (x : Except Fault α) (checks : List EntryCheck) : Prop :=
  ∀ e, x = .error e ↔ FirstFailure checks e

/-! ## The first failure -/

theorem firstFailure_append {cs ds : List EntryCheck} {e : Fault} :
    FirstFailure (cs ++ ds) e ↔ FirstFailure cs e ∨ (∀ c ∈ cs, ¬c.fails) ∧ FirstFailure ds e := by
  induction cs with
  | nil => simp [FirstFailure]
  | cons c cs ih =>
    rw [List.cons_append, FirstFailure, FirstFailure, ih, List.forall_mem_cons]
    tauto

/-- There is a first failure if there is a failure. -/
theorem exists_firstFailure_iff {cs : List EntryCheck} : (∃ e, FirstFailure cs e) ↔ ∃ c ∈ cs, c.fails := by
  induction cs with
  | nil => simp [FirstFailure]
  | cons c cs ih =>
    rw [List.exists_mem_cons_iff, ← ih]
    constructor
    · rintro ⟨e, ⟨hc, -⟩ | ⟨-, he⟩⟩
      · exact Or.inl hc
      · exact Or.inr ⟨e, he⟩
    · rintro (hc | ⟨e, he⟩)
      · exact ⟨c.fault, Or.inl ⟨hc, rfl⟩⟩
      · by_cases hc : c.fails
        · exact ⟨c.fault, Or.inl ⟨hc, rfl⟩⟩
        · exact ⟨e, Or.inr ⟨hc, he⟩⟩

/-- Checks that report one fault are one check. -/
theorem firstFailure_of_common {cs : List EntryCheck} {e e' : Fault} (h : ∀ c ∈ cs, c.fault = e) :
    FirstFailure cs e' ↔ (∃ c ∈ cs, c.fails) ∧ e' = e := by
  induction cs with
  | nil => simp [FirstFailure]
  | cons c cs ih =>
    obtain ⟨hc, hcs⟩ := List.forall_mem_cons.1 h
    rw [FirstFailure, ih hcs, hc, List.exists_mem_cons_iff]
    tauto

/-! ## Computations and their checks -/

namespace StopsOnlyAt

variable {α β : Type} {cs ds : List EntryCheck}

/-- A computation answers exactly if no check fails. -/
theorem answers_iff {x : Except Fault α} (h : StopsOnlyAt x cs) : (∃ a, x = .ok a) ↔ ∀ c ∈ cs, ¬c.fails := by
  have hstops : (∃ e, x = .error e) ↔ ∃ c ∈ cs, c.fails := (exists_congr h).trans exists_firstFailure_iff
  cases x with
  | ok a =>
    have hnone : ¬∃ c ∈ cs, c.fails := fun hfail => nomatch hstops.2 hfail
    refine iff_of_true ⟨a, rfl⟩ ?_
    intro c hc hfails
    exact hnone ⟨c, hc, hfails⟩
  | error e =>
    obtain ⟨c, hc, hfails⟩ := hstops.1 ⟨e, rfl⟩
    refine iff_of_false ?_ fun hnone => hnone c hc hfails
    rintro ⟨a, ha⟩
    exact nomatch ha

/-- A computation that answers makes no check that can fail. -/
theorem of_ok {x : Except Fault α} {a : α} (h : x = .ok a) : StopsOnlyAt x [] := by
  intro e
  rw [h]
  simp [FirstFailure]

/-- A check that passes can be left out. -/
theorem passed_iff {x : Except Fault α} {c : EntryCheck} (hc : ¬c.fails) : StopsOnlyAt x (c :: cs) ↔ StopsOnlyAt x cs := by
  unfold StopsOnlyAt
  simp only [FirstFailure, hc, false_and, not_false_eq_true, true_and, false_or]

/-- What stands behind a check that fails does not matter. -/
theorem of_failed {x : Except Fault α} {c : EntryCheck} (hc : c.fails) (h : x = .error c.fault) : StopsOnlyAt x (c :: cs) := by
  intro e
  rw [h]
  simp [FirstFailure, hc, eq_comm]

protected theorem ensure (c : Prop) [Decidable c] (e : Fault) : StopsOnlyAt (ensure c e) [⟨¬c, e⟩] := by
  intro e'
  rw [ensure_eq_error_iff]
  simp [FirstFailure, eq_comm]

/-- The checks of two computations in sequence: those of the first, then those of the second, which is reached if the first
answers. -/
protected theorem bind {x : Except Fault α} {f : α → Except Fault β} (hx : StopsOnlyAt x cs)
    (hf : ∀ a, x = .ok a → StopsOnlyAt (f a) ds) : StopsOnlyAt (x >>= f) (cs ++ ds) := by
  intro e
  rw [firstFailure_append, ← hx.answers_iff, ← hx e]
  cases x with
  | ok a => simp [hf a rfl e]
  | error e' => simp

/-- What is done with an answer adds no check. -/
protected theorem map {x : Except Fault α} (hx : StopsOnlyAt x cs) (g : α → β) : StopsOnlyAt (x >>= fun a => pure (g a)) cs := by
  have hpure : ∀ a, x = .ok a → StopsOnlyAt (pure (g a) : Except Fault β) [] := fun a _ => of_ok rfl
  have hbind := hx.bind hpure
  rwa [List.append_nil] at hbind

/-- The checks of a loop over an array, one step after the other. -/
protected theorem ofFnM {n : Nat} {f : Fin n → Except Fault α} {checks : Fin n → List EntryCheck}
    (h : ∀ i, StopsOnlyAt (f i) (checks i)) : StopsOnlyAt (Vector.ofFnM f) ((List.finRange n).flatMap checks) := by
  induction n with
  | zero => exact of_ok Vector.ofFnM_zero
  | succ n ih =>
    rw [Vector.ofFnM_succ, List.finRange_succ_last, List.flatMap_append, List.flatMap_map, List.flatMap_singleton]
    exact (ih fun i => h i.castSucc).bind fun start _ => (h (Fin.last n)).map start.push

/-- A loop whose steps make one check each, for the same fault. -/
theorem ofFnM_common {n : Nat} {f : Fin n → Except Fault α} {fails : Fin n → Prop} {e : Fault}
    (h : ∀ i, StopsOnlyAt (f i) [⟨fails i, e⟩]) : StopsOnlyAt (Vector.ofFnM f) [⟨∃ i, fails i, e⟩] := by
  intro e'
  have hcommon : ∀ c ∈ (List.finRange n).flatMap fun i => [EntryCheck.mk (fails i) e], c.fault = e := by simp
  rw [StopsOnlyAt.ofFnM h e', firstFailure_of_common hcommon]
  simp [FirstFailure]

/-- A loop whose steps cannot fail cannot fail. -/
theorem ofFnM_nil {n : Nat} {f : Fin n → Except Fault α} (h : ∀ i, StopsOnlyAt (f i) []) : StopsOnlyAt (Vector.ofFnM f) [] := by
  have hloop := StopsOnlyAt.ofFnM h
  rwa [List.flatMap_eq_nil_iff.2 fun _ _ => rfl] at hloop

/-- The checks of a loop over a list. -/
protected theorem forM {xs : List α} {f : α → Except Fault Unit} {checks : α → List EntryCheck}
    (h : ∀ x ∈ xs, StopsOnlyAt (f x) (checks x)) : StopsOnlyAt (xs.forM f) (xs.flatMap checks) := by
  induction xs with
  | nil => exact of_ok rfl
  | cons x xs ih =>
    obtain ⟨hx, hxs⟩ := List.forall_mem_cons.1 h
    exact hx.bind fun _ _ => ih hxs

end StopsOnlyAt

end ModuleLattice
