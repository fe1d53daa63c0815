import ModuleLattice.Program.Machine

/-!
# Builds of the library

The library is offered in two builds. The scalar build has the reference backend only and keeps the four states of a sponge
batch side by side; the vector build adds the backends that run in lanes and keeps a batch word by word.
-/

namespace ModuleLattice

/-- The two builds. -/
inductive Build where
  | scalar
  | vector
deriving DecidableEq

namespace Build

/-- The backends of a build, in the order in which they are listed. -/
def backends : Build → List Backend
  | .scalar => [.reference]
  | .vector => [.reference, .simd .eight, .simd .sixteen, .simd .thirtyTwo, .simd .sixtyFour]

/-- The layout of sponge batches in a build. -/
def layout : Build → Shake.Layout
  | .scalar => .byState
  | .vector => .byWord

/-- The backend of a build with a given name. -/
def backend? (build : Build) (name : String) : Option Backend :=
  build.backends.find? fun b => b.name == name

/-- The setting of a build. Sixteen million blocks are more than any seed is known to need; three or four are usual. -/
def setting (build : Build) : Setting := ⟨Shake.Keccak.permute, build.layout, 16777216⟩

end Build

end ModuleLattice
