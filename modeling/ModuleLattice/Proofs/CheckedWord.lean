import ModuleLattice.Blocks
import ModuleLattice.Word
import Mathlib.Tactic.Choose

/-!
# Checked words against the words' own arithmetic

A checked operation answers exactly when the exact result has a word, and its answer is then the word's own, wrapping
operation: `Word.add16_eq_ok_iff` and its siblings. So where nothing overflows, the checked scalar routines and the lane
routines compute with the same words, and the value of the word is the exact result. The second part opens `Vector.ofFnM`,
the loop of the checked routines: it answers with the array of the answers.
-/

namespace ModuleLattice

/-! ## Steps in sequence -/

/-- A step that answers hands its answer on. -/
@[simp] theorem ok_bind {α β : Type} (x : α) (f : α → Except Fault β) : (Except.ok x >>= f) = f x := rfl

/-- A step that stops stops the computation. -/
@[simp] theorem error_bind {α β : Type} (e : Fault) (f : α → Except Fault β) :
    ((Except.error e : Except Fault α) >>= f) = .error e := rfl

/-- A computation in two steps gives a value exactly if the second step gives it for the value of the first. -/
theorem bind_eq_ok_iff {α β : Type} {x : Except Fault α} {f : α → Except Fault β} {b : β} :
    (x >>= f) = .ok b ↔ ∃ a, x = .ok a ∧ f a = .ok b := by
  cases x with
  | ok a => simp
  | error e => simp

/-- A computation in two steps stops with a fault exactly if one of the steps does, the second for the value of the first. -/
theorem bind_eq_error_iff {α β : Type} {x : Except Fault α} {f : α → Except Fault β} {e : Fault} :
    (x >>= f) = .error e ↔ x = .error e ∨ ∃ a, x = .ok a ∧ f a = .error e := by
  cases x with
  | ok a => simp
  | error e' => simp

/-- A computation behind a check gives a value exactly if the check passes and the computation gives the value. -/
theorem ensure_bind_eq_ok_iff {α : Type} {c : Prop} [Decidable c] {e : Fault} {x : Except Fault α} {a : α} :
    (ensure c e >>= fun _ => x) = .ok a ↔ c ∧ x = .ok a := by
  by_cases hc : c <;> simp [ensure, hc]

/-- A computation behind a check stops with the check's fault if the check fails, and otherwise as the computation does. -/
theorem ensure_bind_eq_error_iff {α : Type} {c : Prop} [Decidable c] {e e' : Fault} {x : Except Fault α} :
    (ensure c e >>= fun _ => x) = .error e' ↔ ¬c ∧ e' = e ∨ c ∧ x = .error e' := by
  by_cases hc : c <;> simp [ensure, hc, eq_comm]

namespace Word

/-- A number inside the 16-bit word is its own residue. -/
theorem bmod_of_fits16 {x : Int} (h : -32768 ≤ x ∧ x < 32768) : x.bmod 65536 = x := by
  apply Int.bmod_eq_of_le <;> omega

/-- A number that has a 32-bit word. -/
def Fits32 (x : Int) : Prop := -2147483648 ≤ x ∧ x < 2147483648

theorem fits32_toInt (a : Int32) : Fits32 a.toInt := ⟨a.le_toInt, a.toInt_lt⟩

/-- A number inside the 32-bit word is its own residue. -/
theorem bmod_of_fits32 {x : Int} (h : Fits32 x) : x.bmod 4294967296 = x := by
  obtain ⟨hlo, hhi⟩ := h
  apply Int.bmod_eq_of_le <;> omega

theorem fit16_eq_ok_iff {operation : WordOperation} {x : Int} {r : Int16} :
    fit16 operation x = .ok r ↔ (-32768 ≤ x ∧ x < 32768) ∧ Int16.ofInt x = r := by
  by_cases h : -32768 ≤ x ∧ x < 32768 <;> simp [fit16, h]

theorem fit16_eq_error_iff {operation : WordOperation} {x : Int} {e : Fault} :
    fit16 operation x = .error e ↔ ¬(-32768 ≤ x ∧ x < 32768) ∧ .overflow operation = e := by
  by_cases h : -32768 ≤ x ∧ x < 32768 <;> simp [fit16, h]

theorem fit32_eq_ok_iff {operation : WordOperation} {x : Int} {r : Int32} :
    fit32 operation x = .ok r ↔ (-2147483648 ≤ x ∧ x < 2147483648) ∧ Int32.ofInt x = r := by
  by_cases h : -2147483648 ≤ x ∧ x < 2147483648 <;> simp [fit32, h]

/-! ## The six operations -/

/-- A checked sum is the wrapping sum, if it does not wrap. -/
theorem add16_eq_ok_iff {a b r : Int16} :
    add16 a b = .ok r ↔ (-32768 ≤ a.toInt + b.toInt ∧ a.toInt + b.toInt < 32768) ∧ a + b = r := by
  rw [add16, fit16_eq_ok_iff, Int16.ofInt_add, Int16.ofInt_toInt, Int16.ofInt_toInt]

/-- A checked difference is the wrapping difference, if it does not wrap. -/
theorem sub16_eq_ok_iff {a b r : Int16} :
    sub16 a b = .ok r ↔ (-32768 ≤ a.toInt - b.toInt ∧ a.toInt - b.toInt < 32768) ∧ a - b = r := by
  rw [sub16, fit16_eq_ok_iff, Int16.ofInt_sub, Int16.ofInt_toInt, Int16.ofInt_toInt]

/-- A checked negation is the wrapping negation, if it does not wrap. -/
theorem neg16_eq_ok_iff {a r : Int16} :
    neg16 a = .ok r ↔ (-32768 ≤ -a.toInt ∧ -a.toInt < 32768) ∧ -a = r := by
  rw [neg16, fit16_eq_ok_iff, Int16.ofInt_neg, Int16.ofInt_toInt]

/-- A checked sum is the wrapping sum, if it does not wrap. -/
theorem add32_eq_ok_iff {a b r : Int32} :
    add32 a b = .ok r ↔ (-2147483648 ≤ a.toInt + b.toInt ∧ a.toInt + b.toInt < 2147483648) ∧ a + b = r := by
  rw [add32, fit32_eq_ok_iff, Int32.ofInt_add, Int32.ofInt_toInt, Int32.ofInt_toInt]

/-- A checked difference is the wrapping difference, if it does not wrap. -/
theorem sub32_eq_ok_iff {a b r : Int32} :
    sub32 a b = .ok r ↔ (-2147483648 ≤ a.toInt - b.toInt ∧ a.toInt - b.toInt < 2147483648) ∧ a - b = r := by
  rw [sub32, fit32_eq_ok_iff, Int32.ofInt_sub, Int32.ofInt_toInt, Int32.ofInt_toInt]

/-- A checked product is the wrapping product, if it does not wrap. -/
theorem mul32_eq_ok_iff {a b r : Int32} :
    mul32 a b = .ok r ↔ (-2147483648 ≤ a.toInt * b.toInt ∧ a.toInt * b.toInt < 2147483648) ∧ a * b = r := by
  rw [mul32, fit32_eq_ok_iff, Int32.ofInt_mul, Int32.ofInt_toInt, Int32.ofInt_toInt]

/-! ## Their values where they do not wrap -/

/-- No 16-bit word is larger than `2 ^ 15`. -/
theorem natAbs_toInt_le (a : Int16) : a.toInt.natAbs ≤ 32768 := by
  have hlo := a.le_toInt
  have hhi := a.toInt_lt
  omega

theorem toInt_add16 {a b : Int16} (h : -32768 ≤ a.toInt + b.toInt ∧ a.toInt + b.toInt < 32768) :
    (a + b).toInt = a.toInt + b.toInt := by
  rw [Int16.toInt_add]
  exact bmod_of_fits16 h

theorem toInt_sub16 {a b : Int16} (h : -32768 ≤ a.toInt - b.toInt ∧ a.toInt - b.toInt < 32768) :
    (a - b).toInt = a.toInt - b.toInt := by
  rw [Int16.toInt_sub]
  exact bmod_of_fits16 h

theorem toInt_neg16 {a : Int16} (h : -32768 ≤ -a.toInt ∧ -a.toInt < 32768) : (-a).toInt = -a.toInt := by
  rw [Int16.toInt_neg]
  exact bmod_of_fits16 h

theorem toInt_add32 {a b : Int32} (h : -2147483648 ≤ a.toInt + b.toInt ∧ a.toInt + b.toInt < 2147483648) :
    (a + b).toInt = a.toInt + b.toInt := by
  rw [Int32.toInt_add]
  exact bmod_of_fits32 h

theorem toInt_sub32 {a b : Int32} (h : -2147483648 ≤ a.toInt - b.toInt ∧ a.toInt - b.toInt < 2147483648) :
    (a - b).toInt = a.toInt - b.toInt := by
  rw [Int32.toInt_sub]
  exact bmod_of_fits32 h

theorem toInt_mul32 {a b : Int32} (h : -2147483648 ≤ a.toInt * b.toInt ∧ a.toInt * b.toInt < 2147483648) :
    (a * b).toInt = a.toInt * b.toInt := by
  rw [Int32.toInt_mul]
  exact bmod_of_fits32 h

/-! ## Shifts of a 32-bit word -/

/-- A shift by 16 places is the division by `2 ^ 16`, rounded down. -/
theorem toInt_shiftRight_sixteen (x : Int32) : (x >>> 16).toInt = x.toInt / 65536 := by
  rw [← Int32.toInt_toBitVec, Int32.toBitVec_shiftRight]
  simp [BitVec.sshiftRight', BitVec.toInt_sshiftRight, Int.shiftRight_eq_div_pow]

/-- A shift by 26 places is the division by `2 ^ 26`, rounded down. -/
theorem toInt_shiftRight_twentySix (x : Int32) : (x >>> 26).toInt = x.toInt / 67108864 := by
  rw [← Int32.toInt_toBitVec, Int32.toBitVec_shiftRight]
  simp [BitVec.sshiftRight', BitVec.toInt_sshiftRight, Int.shiftRight_eq_div_pow]

/-- A shift up by 16 places and down again keeps the low half of a word and extends its sign. -/
theorem shift_up_down (x : Int32) : (x <<< 16) >>> 16 = x.toInt16.toInt32 := by
  apply Int32.toInt.inj
  rw [toInt_shiftRight_sixteen, Int16.toInt_toInt32, Int32.toInt_toInt16, ← Int32.toInt_toBitVec, ← Int32.toInt_toBitVec,
    Int32.toBitVec_shiftLeft, BitVec.shiftLeft_eq', BitVec.toInt_shiftLeft, Nat.shiftLeft_eq,
    BitVec.toInt_eq_toNat_bmod x.toBitVec]
  simp only [Int.bmod_def]
  simp
  omega

end Word

/-! ## The loop of the checked routines -/

/-- A loop gives an array exactly if its steps give the entries, in every monad in which a computation in two steps gives a value
only if both steps do. -/
theorem ofFnM_eq_pure_iff {m : Type → Type} [Monad m] [LawfulMonad m]
    (hpure : ∀ {α : Type} {a b : α}, (pure a : m α) = pure b → a = b)
    (hbind : ∀ {α β : Type} {x : m α} {g : α → m β} {b : β}, x >>= g = pure b → ∃ a, x = pure a ∧ g a = pure b)
    {α : Type} {n : Nat} {f : Fin n → m α} {v : Vector α n} : Vector.ofFnM f = pure v ↔ ∀ i : Fin n, f i = pure (v.get i) := by
  constructor
  · intro h
    induction n with
    | zero => intro i; exact i.elim0
    | succ n ih =>
      rw [Vector.ofFnM_succ] at h
      obtain ⟨start, hstart, h⟩ := hbind h
      obtain ⟨last, hlast, h⟩ := hbind h
      obtain rfl := hpure h
      intro i
      refine Fin.lastCases ?_ (fun j => ?_) i
      · simpa using hlast
      · have := ih hstart j
        simpa [Vector.getElem_push] using this
  · intro h
    have hf : f = fun i => pure (v.get i) := funext h
    rw [hf, Vector.ofFnM_pure]
    exact congrArg pure (by ext i hi; simp)

/-- A loop answers with an array exactly if its steps answer with the entries. -/
theorem ofFnM_eq_ok_iff {α : Type} {n : Nat} {f : Fin n → Except Fault α} {v : Vector α n} :
    Vector.ofFnM f = .ok v ↔ ∀ i : Fin n, f i = .ok (v.get i) :=
  ofFnM_eq_pure_iff Except.ok.inj bind_eq_ok_iff.1

/-- A loop stops with a fault exactly if one of its steps does and all steps before it answer. -/
theorem ofFnM_eq_error_iff {α : Type} {n : Nat} {f : Fin n → Except Fault α} {e : Fault} :
    Vector.ofFnM f = .error e ↔ ∃ i, f i = .error e ∧ ∀ j < i, ∃ a, f j = .ok a := by
  induction n with
  | zero => simp [Vector.ofFnM_zero, pure, Except.pure]
  | succ n ih =>
    simp only [Vector.ofFnM_succ, bind_eq_error_iff, ih, ofFnM_eq_ok_iff]
    constructor
    · rintro (⟨i, hi, hbefore⟩ | ⟨start, hstart, hlast | ⟨_, _, hnone⟩⟩)
      · refine ⟨i.castSucc, hi, ?_⟩
        intro j hj
        exact hbefore (j.castLT (Nat.lt_trans hj i.isLt)) hj
      · refine ⟨Fin.last n, hlast, ?_⟩
        intro j hj
        exact ⟨_, hstart (j.castLT hj)⟩
      · cases hnone
    · rintro ⟨i, hi, hbefore⟩
      induction i using Fin.lastCases with
      | last =>
        choose start hstart using fun j : Fin n => hbefore j.castSucc j.castSucc_lt_last
        refine .inr ⟨Vector.ofFn start, fun j => ?_, .inl hi⟩
        rw [get_ofFn, hstart]
      | cast i => exact .inl ⟨i, hi, fun j hj => hbefore j.castSucc hj⟩

/-- A loop finds an array exactly if its steps find the entries. -/
theorem ofFnM_eq_some_iff {α : Type} {n : Nat} {f : Fin n → Option α} {v : Vector α n} :
    Vector.ofFnM f = some v ↔ ∀ i : Fin n, f i = some (v.get i) :=
  ofFnM_eq_pure_iff Option.some.inj Option.bind_eq_some_iff.1

/-- A loop answers if its steps do, and its entries are as the answers of the steps. -/
theorem ofFnM_answers {α : Type} {n : Nat} {f : Fin n → Except Fault α} {P : Fin n → α → Prop}
    (h : ∀ i, ∃ a, f i = .ok a ∧ P i a) : ∃ v, Vector.ofFnM f = .ok v ∧ ∀ i : Fin n, P i (v.get i) := by
  choose g hok hg using h
  refine ⟨Vector.ofFn g, ofFnM_eq_ok_iff.2 fun i => ?_, fun i => ?_⟩
  · rw [get_ofFn, hok]
  · rw [get_ofFn]
    exact hg i

end ModuleLattice
