import ModuleLattice.Program.Operation

/-!
# Programs over registers

A program is a list of steps on a machine with named registers and a selected backend. A step performs an operation on
operands, advances a sponge reader, or selects a backend. Operands are values or registers, and several polynomials can be
gathered into a vector. A step keeps what it delivers in registers if it delivers values: a single value in one register, a
batch in several, each where the step's destination says. Any other answer, be it bytes or a fault, leaves the registers as
they were, and the next step runs all the same.
-/

namespace ModuleLattice

/-- Where a value comes from. -/
inductive Source where
  | value (v : Value)
  | register (name : String)

/-- An argument of a step: one value, or polynomials gathered into a vector. -/
inductive Operand where
  | single (s : Source)
  | gathered (parts : List Source)

/-- Where the values of a step are kept: the register of a single value, and the registers of a batch. The two are apart: a
batch is not kept in the register of a single value, nor a single value in the first register of a batch. -/
structure Destination where
  single : Option String
  batch : List String

/-- A step of a program. -/
inductive Step where
  | perform (operation : Operation) (operands : List Operand) (destination : Destination)
  | squeeze (register : String)
  | select (backend : Backend)

/-- The machine that runs programs. -/
structure Machine where
  backend : Backend
  registers : List (String × Value)

namespace Machine

/-- The machine before a program: no registers. -/
def start (b : Backend) : Machine := ⟨b, []⟩

/-- The value of a register, if it holds one. -/
def lookup (m : Machine) (name : String) : Option Value := m.registers.lookup name

/-- The machine with a value stored in a register. -/
def store (m : Machine) (name : String) (v : Value) : Machine :=
  { m with registers := (name, v) :: m.registers.filter fun r => r.1 != name }

/-- The machine with values stored under names, pair by pair; of two values under one name the later stays. -/
def storeAll (m : Machine) : List String → List Value → Machine
  | name :: names, v :: vs => (m.store name v).storeAll names vs
  | _, _ => m

/-- The machine that keeps the values of an answer. -/
def keep (m : Machine) (destination : Destination) : Answer → Machine
  | .value v => (destination.single.map fun name => m.store name v).getD m
  | .batch vs => m.storeAll destination.batch vs.toList
  | _ => m

/-- The value of a source. -/
def read (m : Machine) : Source → Option Value
  | .value v => some v
  | .register name => m.lookup name

/-- Values that are all polynomials of one form, as a vector. -/
def gather (vs : List Value) : Option Value :=
  match vs.mapM Value.poly?, vs.mapM Value.nttPoly? with
  | some ps, _ => some (.polyVec ⟨ps.toArray.toVector⟩)
  | none, some ps => some (.nttVec ⟨ps.toArray.toVector⟩)
  | none, none => none

/-- The value of an operand. -/
def resolve (m : Machine) : Operand → Option Value
  | .single s => m.read s
  | .gathered parts => do gather (← parts.mapM m.read)

/-- One step: its answer, and the machine behind it. -/
def step (setting : Setting) (m : Machine) : Step → Answer × Machine
  | .perform operation operands destination =>
    let answer := match operands.mapM m.resolve with
      | some arguments => operation.apply setting m.backend arguments
      | none => .undefined
    (answer, m.keep destination answer)
  | .squeeze register =>
    match m.lookup register with
    | some (.reader r) =>
      let (block, r) := r.squeezeBlock setting.permutation
      (.bytes block, m.store register (.reader r))
    | some (.batchReader r) =>
      let (blocks, r) := r.squeezeBlocks setting.permutation
      (.byteBatch blocks, m.store register (.batchReader r))
    | _ => (.undefined, m)
  | .select backend => (.selected backend, { m with backend := backend })

/-- A program: the answers of its steps in order, and the machine behind the last. -/
def run (setting : Setting) (m : Machine) : List Step → List Answer × Machine
  | [] => ([], m)
  | s :: rest =>
    let (answer, m) := m.step setting s
    let (answers, m) := m.run setting rest
    (answer :: answers, m)

/-- Leaving out the pairs of one name does not change what another name is looked up to. -/
theorem lookup_filter_ne {registers : List (String × Value)} {name other : String} (h : other ≠ name) :
    (registers.filter fun r => r.1 != name).lookup other = registers.lookup other := by
  induction registers with
  | nil => rfl
  | cons r registers ih =>
    obtain ⟨key, v⟩ := r
    by_cases hkey : key = name
    · simp [List.lookup_cons, hkey, beq_false_of_ne h, ih]
    · simp [List.lookup_cons, hkey, ih]

/-- A register holds what was last stored in it. -/
theorem lookup_store (m : Machine) (name other : String) (v : Value) :
    (m.store name v).lookup other = if other = name then some v else m.lookup other := by
  by_cases h : other = name
  · simp [lookup, store, h]
  · rw [if_neg h, lookup, store, List.lookup_cons, beq_false_of_ne h]
    exact lookup_filter_ne h

/-- A program in two parts is run part by part. -/
theorem run_append (setting : Setting) (m : Machine) (before after : List Step) :
    m.run setting (before ++ after) =
      ((m.run setting before).1 ++ ((m.run setting before).2.run setting after).1,
        ((m.run setting before).2.run setting after).2) := by
  induction before generalizing m with
  | nil => rfl
  | cons s before ih => simp [run, ih (m.step setting s).2]

end Machine

end ModuleLattice
