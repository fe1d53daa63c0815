import ModuleLattice.Proofs.CongruentMachines

/-!
# Lazy reduction is unobservable

When a coefficient is reduced is a question of which words are kept, not of which classes. A reduction of a register in place
leaves a machine congruent to itself, and every other step keeps congruent machines congruent. So runs on congruent machines
stay congruent step by step as long as neither has a fault, also if one of them reduces registers where the other does not
(`Machine.run_congruent`), and what they emit is the same.
-/

namespace ModuleLattice

/-! ## Reductions in place -/

/-- The reduction of a register in place. A single value is delivered, so that registers named for a batch are not written. -/
def Step.reduceInPlace (name : String) (batch : List String) : Step :=
  .perform .reduce [.single (.register name)] ⟨some name, batch⟩

/-- The byte strings of an answer. -/
def Answer.emitted : Answer → List Bytes
  | .bytes b => [b]
  | .byteBatch bs => bs.toList
  | _ => []

theorem Answer.Congruent.emitted_eq {a a' : Answer} (h : a.Congruent a') : a.emitted = a'.emitted := by
  cases h <;> rfl

namespace Machine

/-- What is reduced in place is congruent to what it was, and nothing is emitted. -/
theorem step_reduceInPlace (setting : Setting) (m : Machine) (name : String) (batch : List String) :
    (m.step setting (.reduceInPlace name batch)).2.Congruent m ∧
      (m.step setting (.reduceInPlace name batch)).1.emitted = [] := by
  cases hv : m.lookup name with
  | none =>
    have hstep : m.step setting (.reduceInPlace name batch) = (.undefined, m) := by
      simp [step, Step.reduceInPlace, resolve, read, hv, keep]
    rw [hstep]
    exact ⟨.refl m, rfl⟩
  | some v =>
    have hstep : m.step setting (.reduceInPlace name batch) =
        (Operation.reduce.apply setting m.backend [v],
          m.keep ⟨some name, batch⟩ (Operation.reduce.apply setting m.backend [v])) := by
      simp [step, Step.reduceInPlace, resolve, read, hv]
    rw [hstep]
    obtain ⟨w, hw, hwv⟩ | hundefined := Operation.apply_reduce_cases setting m.backend v
    · rw [hw, keep_value m rfl]
      refine ⟨fun other => ?_, rfl⟩
      rw [lookup_store]
      split
      · next hother =>
        rw [hother, hv]
        exact .some hwv
      · exact Congruent.refl m other
    · rw [hundefined]
      exact ⟨.refl m, rfl⟩

/-! ### Runs -/

/-- The byte strings a program emits, in order. -/
def emitted (setting : Setting) (m : Machine) (program : List Step) : List Bytes :=
  (m.run setting program).1.flatMap Answer.emitted

/-- No step of a run stops with a fault. -/
def RunsWithoutFault (setting : Setting) (m : Machine) (program : List Step) : Prop :=
  ∀ a ∈ (m.run setting program).1, a.Sound

theorem emitted_cons (setting : Setting) (m : Machine) (s : Step) (program : List Step) :
    emitted setting m (s :: program) = (m.step setting s).1.emitted ++ emitted setting (m.step setting s).2 program := rfl

theorem runsWithoutFault_cons {setting : Setting} {m : Machine} {s : Step} {program : List Step} :
    RunsWithoutFault setting m (s :: program) ↔
      (m.step setting s).1.Sound ∧ RunsWithoutFault setting (m.step setting s).2 program :=
  List.forall_mem_cons

theorem runsWithoutFault_append {setting : Setting} {m : Machine} {before after : List Step} :
    RunsWithoutFault setting m (before ++ after) ↔
      RunsWithoutFault setting m before ∧ RunsWithoutFault setting (m.run setting before).2 after := by
  unfold RunsWithoutFault
  rw [run_append]
  exact List.forall_mem_append

end Machine

/-- Two programs that perform the same steps, but for reductions of registers in place: either may have more of them, or others,
anywhere. -/
inductive DifferInReductions : List Step → List Step → Prop
  | nil : DifferInReductions [] []
  | cons (s : Step) {program program' : List Step} (h : DifferInReductions program program') :
    DifferInReductions (s :: program) (s :: program')
  | left (name : String) (batch : List String) {program program' : List Step} (h : DifferInReductions program program') :
    DifferInReductions (.reduceInPlace name batch :: program) program'
  | right (name : String) (batch : List String) {program program' : List Step} (h : DifferInReductions program program') :
    DifferInReductions program (.reduceInPlace name batch :: program')

theorem DifferInReductions.refl : (program : List Step) → DifferInReductions program program
  | [] => .nil
  | s :: program => .cons s (refl program)

/-- Runs of programs that differ in reductions, on congruent machines, emit the same and leave congruent machines behind. -/
theorem Machine.run_congruent (setting : Setting) {program program' : List Step}
    (hprograms : DifferInReductions program program') {m m' : Machine} (h : m.Congruent m')
    (hm : RunsWithoutFault setting m program) (hm' : RunsWithoutFault setting m' program') :
    emitted setting m program = emitted setting m' program' ∧
      (m.run setting program).2.Congruent (m'.run setting program').2 := by
  -- The induction is on how the programs differ. The machines stay congruent through a common step because neither has a fault
  -- there, and through a reduction because it is in place.
  induction hprograms generalizing m m' with
  | nil => exact ⟨rfl, h⟩
  | cons s _ ih =>
    obtain ⟨hsound, hm⟩ := runsWithoutFault_cons.1 hm
    obtain ⟨hsound', hm'⟩ := runsWithoutFault_cons.1 hm'
    obtain ⟨hanswers, hmachines⟩ := step_congruent h s hsound hsound'
    obtain ⟨hemitted, hrest⟩ := ih hmachines hm hm'
    refine ⟨?_, hrest⟩
    rw [emitted_cons, emitted_cons, hanswers.emitted_eq, hemitted]
  | left name batch _ ih =>
    obtain ⟨hkept, hsilent⟩ := step_reduceInPlace setting m name batch
    obtain ⟨hemitted, hrest⟩ := ih (hkept.trans h) (runsWithoutFault_cons.1 hm).2 hm'
    refine ⟨?_, hrest⟩
    rw [emitted_cons, hsilent, List.nil_append, hemitted]
  | right name batch _ ih =>
    obtain ⟨hkept, hsilent⟩ := step_reduceInPlace setting m' name batch
    obtain ⟨hemitted, hrest⟩ := ih (h.trans hkept.symm) hm (runsWithoutFault_cons.1 hm').2
    refine ⟨?_, hrest⟩
    rw [emitted_cons, hsilent, List.nil_append, hemitted]

/-- A step agrees on two machines: its answers are no faults and congruent, and so are the machines behind it; it emits the
same bytes; and where it is a reduction that delivers a value, both machines then hold this one value in the register that
keeps it. -/
structure Machine.AgreeAt (setting : Setting) (m m' : Machine) (s : Step) : Prop where
  answers : (m.step setting s).1.Congruent (m'.step setting s).1
  registers : (m.step setting s).2.Congruent (m'.step setting s).2
  emitted : (m.step setting s).1.emitted = (m'.step setting s).1.emitted
  reduced : ∀ operands destination, s = .perform .reduce operands destination →
    (m.step setting s).1 = (m'.step setting s).1 ∧
      ∀ name v, destination.single = some name → (m.step setting s).1 = .value v →
        (m.step setting s).2.lookup name = some v ∧ (m'.step setting s).2.lookup name = some v

/-- A reduction has the same answer on congruent machines. -/
theorem Machine.step_reduce_eq (setting : Setting) {m m' : Machine} (h : m.Congruent m') (operands : List Operand)
    (destination : Destination) :
    (m.step setting (.perform .reduce operands destination)).1 =
      (m'.step setting (.perform .reduce operands destination)).1 := by
  have harguments := rel_mapM_same (resolve_congruent h) operands
  simp only [step]
  generalize operands.mapM m.resolve = vs, operands.mapM m'.resolve = ws at harguments ⊢
  cases harguments with
  | some hvs => exact Operation.apply_reduce_eq setting m.backend m'.backend hvs
  | none => rfl

theorem Machine.agreeAt {setting : Setting} {m m' : Machine} (h : m.Congruent m') {s : Step}
    (hm : (m.step setting s).1.Sound) (hm' : (m'.step setting s).1.Sound) : AgreeAt setting m m' s := by
  obtain ⟨hanswers, hmachines⟩ := step_congruent h s hm hm'
  refine ⟨hanswers, hmachines, hanswers.emitted_eq, ?_⟩
  rintro operands destination rfl
  have heq := step_reduce_eq setting h operands destination
  refine ⟨heq, fun name v hname hv => ?_⟩
  have hkept : ∀ n : Machine, (n.step setting (.perform .reduce operands destination)).1 = .value v →
      (n.step setting (.perform .reduce operands destination)).2.lookup name = some v := by
    intro n hn
    change (n.keep destination (n.step setting (.perform .reduce operands destination)).1).lookup name = some v
    rw [hn, keep_value n hname, lookup_store, if_pos rfl]
  exact ⟨hkept m hv, hkept m' (heq ▸ hv)⟩

/-- Lazy reduction is unobservable. Two machines start with registers that are congruent modulo 3329, on any backends. If
neither run of a program has a fault, every step of the two runs agrees: the answers are congruent, what is emitted is the
same, all registers stay congruent, and what a reduction delivers is the same in both. And if two programs differ only in the
reductions they make in place, and neither run has a fault, they emit the same bytes and leave congruent registers behind. -/
theorem lazyReduction_unobservable (setting : Setting) {m m' : Machine} (h : m.Congruent m') :
    (∀ (before after : List Step) (s : Step), Machine.RunsWithoutFault setting m (before ++ s :: after) →
      Machine.RunsWithoutFault setting m' (before ++ s :: after) →
        Machine.AgreeAt setting (m.run setting before).2 (m'.run setting before).2 s) ∧
      ∀ program program' : List Step, DifferInReductions program program' → Machine.RunsWithoutFault setting m program →
        Machine.RunsWithoutFault setting m' program' →
          Machine.emitted setting m program = Machine.emitted setting m' program' ∧
            (m.run setting program).2.Congruent (m'.run setting program').2 := by
  refine ⟨?_, fun program program' hprograms hm hm' => Machine.run_congruent setting hprograms h hm hm'⟩
  intro before after s hm hm'
  obtain ⟨hbefore, hm⟩ := Machine.runsWithoutFault_append.1 hm
  obtain ⟨hbefore', hm'⟩ := Machine.runsWithoutFault_append.1 hm'
  obtain ⟨-, hmachines⟩ := Machine.run_congruent setting (.refl before) h hbefore hbefore'
  exact Machine.agreeAt hmachines (Machine.runsWithoutFault_cons.1 hm).1 (Machine.runsWithoutFault_cons.1 hm').1

namespace Machine

/-- A machine with one register. -/
def holding (b : Backend) (p : Poly) : Machine := ⟨b, [("x", .poly p)]⟩

/-- The register is doubled, reduced and read as a message. -/
def doubling : List Step :=
  [.perform .add [.single (.register "x"), .single (.register "x")] ⟨some "x", []⟩, .reduceInPlace "x" [],
    .perform .toMessage [.single (.register "x")] ⟨none, []⟩]

theorem step_holding (setting : Setting) (b : Backend) (p : Poly) (operation : Operation) (destination : Destination) :
    (holding b p).step setting (.perform operation [.single (.register "x")] destination) =
      (operation.apply setting b [.poly p], (holding b p).keep destination (operation.apply setting b [.poly p])) := rfl

theorem step_reduceInPlace_holding (setting : Setting) (b : Backend) (p : Poly) :
    (holding b p).step setting (.reduceInPlace "x" []) =
      (.value (.poly ⟨p.coeffs.map Lane.canonical⟩), holding b ⟨p.coeffs.map Lane.canonical⟩) := by
  have hreduce : Operation.reduce.apply setting b [.poly p] = .value (.poly ⟨p.coeffs.map Lane.canonical⟩) :=
    congrArg (Answer.ofValue .poly) (Poly.reduce_eq_lane b p)
  rw [Step.reduceInPlace, step_holding, hreduce]
  rfl

/-- Residues of either sign can be doubled, and what is doubled and reduced can be read. -/
theorem doubling_runsWithoutFault (setting : Setting) (b : Backend) {p : Poly} (hp : AtMost 3328 p.coeffs) :
    RunsWithoutFault setting (holding b p) doubling := by
  obtain ⟨z, hz⟩ := Coeffs.add_answers hp hp (by decide)
  have hsum : Operation.add.apply setting b [.poly p, .poly p] = .value (.poly ⟨z⟩) :=
    congrArg (fun sum : Except Fault (Coeffs 256) => Answer.ofValue .poly (sum >>= fun c => pure ⟨c⟩)) hz
  have hlength : (List.replicate 32 (0 : UInt8)).length = Width.one.polynomialBytes := List.length_replicate
  obtain ⟨values, hmessage, -⟩ := Width.one.compress_spec (Coeffs.canonical_map_canonical z) hlength
  rw [doubling, runsWithoutFault_cons, runsWithoutFault_cons, runsWithoutFault_cons]
  have hadd : (holding b p).step setting (.perform .add [.single (.register "x"), .single (.register "x")] ⟨some "x", []⟩) =
      (.value (.poly ⟨z⟩), holding b ⟨z⟩) := by
    change (Operation.add.apply setting b [.poly p, .poly p],
      (holding b p).keep ⟨some "x", []⟩ (Operation.add.apply setting b [.poly p, .poly p])) = _
    rw [hsum]
    rfl
  have hread : ∀ q : Poly, Operation.toMessage.apply setting b [.poly q] = .ofExcept .bytes q.toMessage := fun _ => rfl
  have hbytes : Poly.toMessage ⟨z.map Lane.canonical⟩ = .ok (Digits.pack Width.one.bits values).toList := hmessage
  rw [hadd, step_reduceInPlace_holding, step_holding, hread, hbytes]
  exact ⟨Answer.sound_value _, Answer.sound_value _, Answer.sound_bytes _, List.forall_mem_nil _⟩

end Machine

/-- Polynomials whose coefficients are all 1 and all -3328 are congruent. Doubled, reduced and read as messages they emit the
same bytes, also if the second is reduced beforehand, and where they are reduced they become the same. -/
theorem doubling_emissions_eq :
    let m := Machine.holding .reference ⟨Vector.replicate 256 1⟩
    let m' := Machine.holding (.simd .sixteen) ⟨Vector.replicate 256 (-3328)⟩
    let setting := Build.vector.setting
    let reducedBefore := Step.reduceInPlace "x" [] :: Machine.doubling
    m.Congruent m' ∧ Machine.RunsWithoutFault setting m Machine.doubling ∧
      Machine.RunsWithoutFault setting m' Machine.doubling ∧ Machine.RunsWithoutFault setting m' reducedBefore ∧
      Machine.AgreeAt setting (m.run setting (Machine.doubling.take 1)).2 (m'.run setting (Machine.doubling.take 1)).2
        (.reduceInPlace "x" []) ∧
      Machine.emitted setting m Machine.doubling = Machine.emitted setting m' reducedBefore := by
  intro m m' setting reducedBefore
  have hsize : ∀ c : Int16, c.toInt.natAbs ≤ 3328 → AtMost 3328 (Vector.replicate 256 c) := by
    intro c hc
    refine atMost_iff.2 fun i => ?_
    rw [get_eq_getElem, Vector.getElem_replicate]
    exact Nat.lt_succ_of_le hc
  have hcongruent : m.Congruent m' := by
    intro name
    by_cases hname : name = "x"
    · subst hname
      refine .some (.poly fun t => ?_)
      rw [get_eq_getElem, get_eq_getElem, Vector.getElem_replicate, Vector.getElem_replicate]
      decide
    · have hempty : ∀ b p, (Machine.holding b p).lookup name = none := by
        intro b p
        rw [Machine.holding, Machine.lookup, List.lookup_cons, beq_false_of_ne hname]
        rfl
      rw [hempty, hempty]
      exact .none
  have hm : Machine.RunsWithoutFault setting m Machine.doubling :=
    Machine.doubling_runsWithoutFault setting _ (hsize 1 (by decide))
  have hm' : Machine.RunsWithoutFault setting m' Machine.doubling :=
    Machine.doubling_runsWithoutFault setting _ (hsize (-3328) (by decide))
  have hbefore : Machine.RunsWithoutFault setting m' reducedBefore := by
    refine Machine.runsWithoutFault_cons.2 ?_
    rw [Machine.step_reduceInPlace_holding]
    exact ⟨Answer.sound_value _, Machine.doubling_runsWithoutFault setting _ (atMost_map_canonical _)⟩
  obtain ⟨hsteps, hprograms⟩ := lazyReduction_unobservable setting hcongruent
  have hreduced := hsteps (Machine.doubling.take 1) (Machine.doubling.drop 2) (.reduceInPlace "x" []) hm hm'
  have hemitted := hprograms Machine.doubling reducedBefore (.right "x" [] (.refl Machine.doubling)) hm hbefore
  exact ⟨hcongruent, hm, hm', hbefore, hreduced, hemitted.1⟩

end ModuleLattice
