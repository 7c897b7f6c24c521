import QueryPipeline.Report.Rejection
import QueryPipeline.Run.Value

/-!
# Faults of a run

What can go wrong while a pipeline runs, and computations that go wrong in this way.
-/

namespace QueryPipeline

/-- What can go wrong while a pipeline runs. -/
inductive Fault where
  /-- A variable has no value. -/
  | unbound (name : String)
  /-- A value has the wrong type. -/
  | typeMismatch (expected : Ty) (found : Value)
  /-- A value that should be gone through is no list. -/
  | notASequence (v : Value)
  /-- A value has no part at a position. -/
  | missingPart (position : Nat) (v : Value)
  /-- The result does not fit in 64 bits. -/
  | overflow
  /-- A value is not of the shape that the stage takes in. -/
  | shapeMismatch (stage : Nat)
deriving DecidableEq, Inhabited, Repr

/-- The fault in words. -/
def Fault.message : Fault → String
  | unbound x => s!"unbound variable `{x}`"
  | typeMismatch expected found => s!"expected {expected.text}, found {found.text}"
  | notASequence v => s!"{v.text} is not a sequence"
  | missingPart position v => s!"{v.text} has no part {position}"
  | overflow => "integer overflow"
  | shapeMismatch stage => s!"stage {stage} received a value that does not match its input shape"

/-- A computation that reads and changes a state, and that can fail with a fault or at a dangling id. -/
abbrev Computation (σ : Type) := StateT σ (Except (Failure Fault))

namespace Computation

variable {σ α : Type}

/-- Fails with a fault. -/
def fail (f : Fault) : Computation σ α := throw (.error f)

/-- The value, or the fault that stands in its place. -/
def ofExcept : Except Fault α → Computation σ α
  | .ok a => return a
  | .error f => fail f

/-- The value, or the given fault if there is none. -/
def ofOption (f : Fault) : Option α → Computation σ α
  | some a => return a
  | none => fail f

end Computation

end QueryPipeline
