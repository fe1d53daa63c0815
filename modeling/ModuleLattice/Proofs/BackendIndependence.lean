import ModuleLattice.Build
import ModuleLattice.Proofs.EntryForm

/-!
# Selecting a backend is unobservable

Programs may select backends between their operations. An operation answers the same on every backend: where its entry checks
pass, all backends compute what the lanes compute, and where one fails, the fault is reported before a kernel runs
(`Operation.apply_eq`). A step therefore does the same to two machines that differ in their backend only, and so does a run;
`transcript_eq_reference` compares the runs of two programs that differ only in the backends they select, and both with a run
that stays on the scalar code. The registers may hold any values to begin with, among them multiplication caches of any
coefficients.
-/

namespace ModuleLattice

/-! ## Operations -/

/-- The inner product is the same on every backend. -/
theorem NttVec.innerProductCached_backend {k : Nat} (b b' : Backend) (hk : ProductRank k) (v : NttVec k) (w : CachedNttVec k) :
    v.innerProductCached b w = v.innerProductCached b' w := by
  rw [NttVec.innerProductCached_eq b hk.2, NttVec.innerProductCached_eq b' hk.2]

/-- An operation answers the same on every backend, whatever its arguments. -/
theorem Operation.apply_eq (setting : Setting) (b b' : Backend) (operation : Operation) (arguments : List Value) :
    operation.apply setting b arguments = operation.apply setting b' arguments := by
  unfold Operation.apply
  simp only [Poly.ntt_eq, PolyVec.ntt, NttPoly.nttInverse_eq, NttVec.nttInverse, Coeffs.reduce_eq_lane, Poly.reduce,
    NttPoly.reduce, PolyVec.reduce, NttVec.reduce, Coeffs.toMontgomery_eq_lane, Poly.toMontgomery, NttPoly.toMontgomery,
    NttVec.toMontgomery, NttPoly.mulCache_eq_lane, NttPoly.cached_eq_lane, NttVec.cached_eq_lane, NttPoly.mul_eq,
    NttPoly.mulCached_eq, NttVec.innerProduct_eq]
  split <;> try rfl
  -- What is left are the three ways of calling the inner product, which is defined on some ranks only.
  · rename_i k v l w
    by_cases hk : NttVec.ProductRank k
    · simp only [if_pos hk, NttVec.innerProductCached_backend b b' hk]
    · simp only [if_neg hk]
  · rename_i k v l w
    by_cases hkl : NttVec.ProductRank k ∧ l = k
    · simp only [dif_pos hkl, NttVec.innerProductCached_backend b b' hkl.1]
    · simp only [dif_neg hkl]
  · rename_i k v l w
    by_cases hk : NttVec.ProductRank k
    · simp only [if_pos hk, NttVec.innerProductCached_backend b b' hk]
    · simp only [if_neg hk]

/-! ## Steps -/

/-- Whether a step selects a backend. -/
def Step.selects : Step → Bool
  | .select _ => true
  | _ => false

namespace Machine

/-- The machine with another backend selected. -/
def on (m : Machine) (b : Backend) : Machine := { m with backend := b }

theorem read_on (m : Machine) (b : Backend) (s : Source) : (m.on b).read s = m.read s := by
  cases s <;> rfl

theorem resolve_on (m : Machine) (b : Backend) (o : Operand) : (m.on b).resolve o = m.resolve o := by
  cases o with
  | single s => exact read_on m b s
  | gathered parts => rw [resolve, resolve, funext (read_on m b)]

theorem storeAll_on (m : Machine) (b : Backend) (names : List String) (vs : List Value) :
    (m.on b).storeAll names vs = (m.storeAll names vs).on b := by
  induction names generalizing m vs with
  | nil => rfl
  | cons name names ih =>
    cases vs with
    | nil => rfl
    | cons v vs => exact ih (m.store name v) vs

theorem keep_on (m : Machine) (b : Backend) (destination : Destination) (answer : Answer) :
    (m.on b).keep destination answer = (m.keep destination answer).on b := by
  cases answer with
  | value v => rcases destination with ⟨_ | name, batch⟩ <;> rfl
  | batch vs => exact storeAll_on m b destination.batch vs.toList
  | _ => rfl

/-- A step that selects no backend does the same to a machine on any backend. -/
theorem step_on (setting : Setting) (m : Machine) (b : Backend) {s : Step} (hs : s.selects = false) :
    (m.on b).step setting s = ((m.step setting s).1, (m.step setting s).2.on b) := by
  cases s with
  | perform operation operands destination =>
    have happly : operation.apply setting (m.on b).backend = operation.apply setting m.backend :=
      funext (operation.apply_eq setting _ _)
    simp only [step, funext (resolve_on m b), happly, keep_on]
  | squeeze register =>
    simp only [step, lookup, on]
    split <;> rfl
  | select b' => cases hs

/-! ## Programs -/

/-- What a program does besides selecting backends. -/
def operations (program : List Step) : List Step := program.filter fun s => !s.selects

/-- The answers of a program, without those of the steps that select a backend. -/
def transcript (setting : Setting) (m : Machine) (program : List Step) : List Answer :=
  (((m.run setting program).1.zip program).filter fun answered => !answered.2.selects).map Prod.fst

/-- Every step has an answer. -/
theorem length_run (setting : Setting) (m : Machine) (program : List Step) :
    (m.run setting program).1.length = program.length := by
  induction program generalizing m with
  | nil => rfl
  | cons s program ih => exact congrArg Nat.succ (ih (m.step setting s).2)

/-- Selecting a backend leaves no trace in the transcript. -/
theorem transcript_select (setting : Setting) (m : Machine) (b : Backend) (program : List Step) :
    transcript setting m (.select b :: program) = transcript setting (m.on b) program := rfl

/-- Every other step leaves its answer. -/
theorem transcript_cons (setting : Setting) (m : Machine) {s : Step} (hs : s.selects = false) (program : List Step) :
    transcript setting m (s :: program) = (m.step setting s).1 :: transcript setting (m.step setting s).2 program := by
  simp [transcript, run, hs]

/-- A run on any machine has the answers of its operations alone on a machine with the same registers, and leaves the same
registers behind. -/
theorem run_eq_operations (setting : Setting) (m : Machine) (b : Backend) (program : List Step) :
    transcript setting (m.on b) program = (m.run setting (operations program)).1 ∧
      ((m.on b).run setting program).2.registers = (m.run setting (operations program)).2.registers := by
  induction program generalizing m b with
  | nil => exact ⟨rfl, rfl⟩
  | cons s program ih =>
    cases hs : s.selects with
    | true =>
      cases s with
      | select b' =>
        rw [transcript_select]
        exact ih m b'
      | perform operation operands destination => cases hs
      | squeeze register => cases hs
    | false =>
      have hoperations : operations (s :: program) = s :: operations program := by simp [operations, hs]
      obtain ⟨hanswers, hregisters⟩ := ih (m.step setting s).2 b
      rw [hoperations, transcript_cons setting (m.on b) hs, run, step_on setting m b hs, hanswers]
      refine ⟨rfl, ?_⟩
      rw [run, step_on setting m b hs]
      exact hregisters

end Machine

/-- Which backends a program selects, and when, cannot be observed. Two programs that perform the same operations in the same
order, from the same registers, have the same answers, values and faults alike, and leave the same registers behind, wherever
they select backends and whichever backends they start on; and these are the answers, one for each operation, of the run of
the operations alone on the scalar code. -/
theorem transcript_eq_reference (setting : Setting) (registers : List (String × Value)) (b b' : Backend)
    (program program' : List Step) (h : Machine.operations program = Machine.operations program') :
    Machine.transcript setting ⟨b, registers⟩ program = Machine.transcript setting ⟨b', registers⟩ program' ∧
      Machine.transcript setting ⟨b, registers⟩ program =
        (Machine.run setting ⟨.reference, registers⟩ (Machine.operations program)).1 ∧
      (Machine.transcript setting ⟨b, registers⟩ program).length = (Machine.operations program).length ∧
      (Machine.run setting ⟨b, registers⟩ program).2.registers =
        (Machine.run setting ⟨b', registers⟩ program').2.registers := by
  obtain ⟨hanswers, hregisters⟩ := Machine.run_eq_operations setting ⟨.reference, registers⟩ b program
  obtain ⟨hanswers', hregisters'⟩ := Machine.run_eq_operations setting ⟨.reference, registers⟩ b' program'
  rw [← h] at hanswers' hregisters'
  refine ⟨hanswers.trans hanswers'.symm, hanswers, ?_, hregisters.trans hregisters'.symm⟩
  exact (congrArg List.length hanswers).trans (Machine.length_run setting _ _)

/-- A product whose cache is computed on vectors of eight lanes and used on vectors of 64 lanes. -/
def productOnTwoBackends : List Step :=
  [.select (.simd .eight), .perform .cached [.single (.value (.nttPoly ⟨Vector.replicate 256 26631⟩))] ⟨some "right", []⟩,
    .select (.simd .sixtyFour),
    .perform .mulCached [.single (.value (.nttPoly ⟨Vector.replicate 256 4095⟩)), .single (.register "right")]
      ⟨some "product", []⟩]

/-- The same product on the backend that is selected. -/
def productOnOneBackend : List Step :=
  [.perform .cached [.single (.value (.nttPoly ⟨Vector.replicate 256 26631⟩))] ⟨some "right", []⟩,
    .perform .mulCached [.single (.value (.nttPoly ⟨Vector.replicate 256 4095⟩)), .single (.register "right")]
      ⟨some "product", []⟩]

/-- The two products have the same two answers. -/
theorem product_transcripts_eq :
    Machine.operations productOnTwoBackends = Machine.operations productOnOneBackend ∧
      Machine.transcript Build.vector.setting (.start (.simd .sixteen)) productOnTwoBackends =
        Machine.transcript Build.vector.setting (.start .reference) productOnOneBackend ∧
      (Machine.transcript Build.vector.setting (.start (.simd .sixteen)) productOnTwoBackends).length = 2 := by
  have hoperations : Machine.operations productOnTwoBackends = Machine.operations productOnOneBackend := rfl
  obtain ⟨heq, -, hlength, -⟩ := transcript_eq_reference Build.vector.setting [] (.simd .sixteen) .reference
    productOnTwoBackends productOnOneBackend hoperations
  exact ⟨hoperations, heq, hlength⟩

end ModuleLattice
