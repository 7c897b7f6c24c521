import QueryPipeline.Run.Stage

/-!
# Running a pipeline

Each element of the root sequence goes through all the stages before the next one is taken, so assignments to
captures happen in that order.
-/

namespace QueryPipeline

/-- What a computation makes of values, one after the other. -/
def Run.forEach (f : Value → Run (List Value)) : List Value → Run (List Value)
  | [] => return []
  | v :: vs => do
    let a ← f v
    let b ← forEach f vs
    return a ++ b

/-- What the stages from place `index` on make of a value. -/
def Run.through (p : Pool) (names : SymbolTable) :
    (index : Nat) → List (Stage NodeId) → Value → Run (List Value)
  | _, [], v => return [v]
  | index, s :: rest, v => do
    let vs ← s.step p names index v
    Run.forEach (Run.through p names (index + 1) rest) vs

namespace Pipeline

/-- The elements of the root sequence. -/
def elements (p : Pipeline) (names : SymbolTable) : Run (List Value) := do
  let (source, _) ← p.pool.evalWith ⟨names, []⟩ p.source .empty
  Computation.ofExcept source.elements

/-- The results of the pipeline, and the captures after it. -/
def runWith (p : Pipeline) (names : SymbolTable) (captures : Store) :
    Except (Failure Fault) (List Value × Store) :=
  (do
    let items ← p.elements names
    Run.forEach (Run.through p.pool names 0 p.stages) items : Run (List Value)).run captures

/-- The results of the pipeline. -/
def run (p : Pipeline) (names : SymbolTable) (captures : Store) : Except (Failure Fault) (List Value) :=
  (p.runWith names captures).map Prod.fst

end Pipeline

end QueryPipeline
