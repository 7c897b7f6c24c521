import QueryPipeline.Carrier.Plan
import QueryPipeline.Pipeline.Basic
import QueryPipeline.Scope.Rules

/-!
# From chains to pipelines

Each clause after the source becomes one stage, and a filter that binds variables used later becomes three: a
map to an outcome, a filter of the successes, and a map to what they carry.  The third is left out before the
selection, which reads an outcome as it is.

A carrier is made of what is planned, as far as the stage has it: what comes in, and what the clause introduces.
A use of a variable that does not come in is reported.
-/

namespace QueryPipeline

/-- The part of a planned carrier that can be made: what the clause introduces and what comes in. -/
def Link.carrierWithin (l : Link) (input : Shape) (planned : Carrier) : Carrier :=
  { planned with
    fields := planned.fields.filter fun f =>
      l.ids.contains f.binding || input.carrier?.any (·.contains f.binding) }

/-- The complaint that nothing is planned after a clause. -/
def Link.unplanned (l : Link) (clause : Nat) : Rejection :=
  ⟨clause, l.span, .internal "no carrier was planned for this clause"⟩

/-- The stages of a clause between the source and the selection, given what is planned after it. -/
def Link.stagesWithin (l : Link) (clause : Nat) (input : Shape) (beforeSelect : Bool) (b : Boundary) :
    Except Rejection (List (Stage NodeId)) :=
  let carrier := l.carrierWithin input b.carrier
  match l.kind with
  | .generator =>
    match l.ranges.ids with
    | element :: _ => .ok [⟨.flatMap, input, .carrier carrier, .generate l.expr element, clause⟩]
    | [] => .error (l.unplanned clause)
  | .filter =>
    match b.outcome with
    | none => .ok [⟨.filter, input, input, .predicate l.expr, clause⟩]
    | some encoding =>
      let outcome := Shape.outcome carrier encoding
      .ok (⟨.map, input, outcome, .guard l.expr, clause⟩ ::
        ⟨.filter, outcome, outcome, .rejectAbsent, clause⟩ ::
        if beforeSelect then [] else [⟨.map, outcome, .carrier carrier, .unwrap, clause⟩])
  | .define =>
    .ok [⟨.map, input, .carrier carrier, .extend (l.ranges.ids.map fun id => (id, l.expr)), clause⟩]
  | .unpack =>
    let parts := (b.extraction.map Extraction.parts).getD []
    .ok [⟨.map, input, .carrier carrier, .destructure l.expr (parts.filter fun p => carrier.contains p.1),
      clause⟩]
  | .source | .select =>
    .error ⟨clause, l.span, .malformed s!"`{l.kind.keyword}` cannot appear mid-chain"⟩

/-- The stages of a clause between the source and the selection. -/
def Link.stages (l : Link) (clause : Nat) (input : Shape) (beforeSelect : Bool) (plan : Plan) :
    Except Rejection (List (Stage NodeId)) :=
  match plan.boundary? clause with
  | some b => l.stagesWithin clause input beforeSelect b
  | none => .error (l.unplanned clause)

/-- The stage of the selection. -/
def Link.selection (l : Link) (clause : Nat) (input : Shape) : Stage NodeId :=
  ⟨.map, input, .projection l.ty, .project l.expr, clause⟩

/-- What comes out of the last of some stages. -/
def outputAfter (input : Shape) (stages : List (Stage NodeId)) : Shape :=
  (stages.getLast?.map Stage.output).getD input

namespace Chain

/-- The reads that do not come in; none if one of them is of no binding of the chain. -/
def missingReads (c : Chain) (names : SymbolTable) (clause : Nat) (input : Shape) :
    List (BindingId × Span) → Option (List Rejection)
  | [] => some []
  | (id, span) :: rest =>
    if input.carrier?.any (·.contains id) then c.missingReads names clause input rest
    else do
      let b ← c.binding? id
      let later ← c.missingReads names clause input rest
      some (⟨clause, span, .unassigned (names.spelling b.name)⟩ :: later)

/-- The stages of the clauses from place `clause` on, and all that is wrong with them; none if a read is of no
binding of the chain. -/
def stagesFrom (c : Chain) (f : Flow) (plan : Plan) (names : SymbolTable) :
    (clause : Nat) → (input : Shape) → List Link → Option (List (Stage NodeId) × List Rejection)
  | _, _, [] => some ([], [])
  | clause, input, [l] => do
    let missing ← c.missingReads names clause input (f.reads clause)
    some ([l.selection clause input], missing)
  | clause, input, l :: rest => do
    let missing ← c.missingReads names clause input (f.reads clause)
    match l.stages clause input (rest.length == 1) plan with
    | .ok stages =>
      let (later, faults) ← c.stagesFrom f plan names (clause + 1) (outputAfter input stages) rest
      some (stages ++ later, missing ++ faults)
    | .error fault =>
      let (later, faults) ← c.stagesFrom f plan names (clause + 1) input rest
      some (later, missing ++ fault :: faults)

theorem stagesFrom_two (c : Chain) (f : Flow) (plan : Plan) (names : SymbolTable) (clause : Nat) (input : Shape)
    (l l' : Link) (links : List Link) :
    c.stagesFrom f plan names clause input (l :: l' :: links) = (do
      let missing ← c.missingReads names clause input (f.reads clause)
      match l.stages clause input ((l' :: links).length == 1) plan with
      | .ok stages =>
        let s ← c.stagesFrom f plan names (clause + 1) (outputAfter input stages) (l' :: links)
        some (stages ++ s.1, missing ++ s.2)
      | .error fault =>
        let s ← c.stagesFrom f plan names (clause + 1) input (l' :: links)
        some (s.1, missing ++ fault :: s.2)) := rfl

/-- The pipeline of a chain, given its flow and a plan. -/
def pipeline (c : Chain) (f : Flow) (plan : Plan) (names : SymbolTable) : Except (Failure Report) Pipeline :=
  match plan.boundary? 0, c.links with
  | some b, source :: rest =>
    match c.stagesFrom f plan names 1 (.carrier b.carrier) rest with
    | none => .error .dangling
    | some (stages, faults) => do
      Report.check faults
      return ⟨c.pool, source.expr, b.carrier, stages⟩
  | none, source :: _ => .error (.error (.one (source.unplanned 0)))
  | _, [] => .error .dangling

/-- The flow of the chain and the plan of what it carries, if the chain keeps to all rules. -/
def analyze (c : Chain) (names : SymbolTable) (policy : ScopePolicy) :
    Except (Failure Report) (Flow × Plan) := do
  let f ← c.flow names
  c.requireScope f names policy
  f.requireAssigned names
  let plan ← c.plan f
  return (f, plan)

/-- The pipeline of a chain that keeps to all rules. -/
def lower (c : Chain) (names : SymbolTable) (policy : ScopePolicy) : Except (Failure Report) Pipeline := do
  let (f, plan) ← c.analyze names policy
  c.pipeline f plan names

end Chain

/-- The pipeline of a query that keeps to all rules. -/
def Query.lower (q : Query) (names : SymbolTable) (policy : ScopePolicy) :
    Except (Failure Report) Pipeline := do
  let c ← q.chain
  c.lower names policy

/-- The pipelines of queries, each on its own. -/
def Query.lowerAll (qs : List Query) (names : SymbolTable) (policy : ScopePolicy) :
    List (Except (Failure Report) Pipeline) :=
  qs.map fun q => q.lower names policy

/-- A pipeline has nothing left to lower. -/
def Pipeline.lower (p : Pipeline) (_names : SymbolTable) (_policy : ScopePolicy) :
    Except (Failure Report) Pipeline :=
  .ok p

end QueryPipeline
