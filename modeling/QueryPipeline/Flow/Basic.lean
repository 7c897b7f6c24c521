import QueryPipeline.Flow.Clash

/-!
# Flow of variables through a chain

For every binding and every clause, a fact says whether the variable has a value there; and every variable that
a clause's expression mentions is resolved to the binding it denotes.

A clause's own pattern variables come first, then the variables of the clauses before it, latest first; what is
neither belongs to the code around the query.
-/

namespace QueryPipeline

/-- Whether a variable has a value in a clause. -/
inductive Fact where
  | unassigned
  /-- It has one as far as the clause's own expression is true. -/
  | assignedIfTrue
  | assigned
deriving DecidableEq, Inhabited, Repr

/-- What a mentioned variable denotes. -/
inductive Resolution where
  /-- A pattern variable of the same clause. -/
  | sameClause (b : BindingId)
  /-- A variable of an earlier clause. -/
  | earlier (b : BindingId)
  /-- A variable of the code around the query. -/
  | outer
deriving DecidableEq, Inhabited, Repr

/-- The binding that is denoted. -/
def Resolution.binding? : Resolution → Option BindingId
  | sameClause b | earlier b => some b
  | outer => none

/-- A mention of a variable in a clause's expression. -/
structure Use where
  name : Symbol
  resolution : Resolution
  span : Span
  isAssignment : Bool
  /-- A variable of the same clause, mentioned before the test that binds it has been made. -/
  beforeDeclaration : Bool
deriving DecidableEq, Inhabited, Repr

/-- The facts, by binding and clause, and the uses, by clause. -/
structure Flow where
  facts : List (List Fact)
  uses : List (List Use)
deriving DecidableEq, Inhabited, Repr

namespace Flow

/-- Whether a binding has a value in a clause. -/
def fact (f : Flow) (clause : Nat) (b : BindingId) : Fact :=
  ((f.facts[b.index]?).bind fun row => row[clause]?).getD .unassigned

/-- The uses in a clause. -/
def usesIn (f : Flow) (clause : Nat) : List Use := (f.uses[clause]?).getD []

end Flow

/-- The bindings of earlier clauses among the uses, each with the place of the use. -/
def readsOf (uses : List Use) : List (BindingId × Span) :=
  uses.filterMap fun u =>
    match u.resolution with
    | .earlier b => some (b, u.span)
    | _ => none

/-- The bindings of earlier clauses that a clause uses, each with the place of the use. -/
def Flow.reads (f : Flow) (clause : Nat) : List (BindingId × Span) := readsOf (f.usesIn clause)

/-! ### Facts -/

/-- Whether the variable has a value after its clause.  A range variable has one.  A pattern variable has one if
its clause is a filter and the variable is assigned whenever it holds. -/
def Chain.outlives (c : Chain) (b : Binding) : Bool :=
  match b.kind with
  | .range => true
  | .pattern condition => (c.links[b.clause]?).any (·.kind.gates) && condition == .whenTrue

/-- Whether the variable has a value in a clause, given whether it has one after its own. -/
def Binding.factIn (b : Binding) (outlives : Bool) (clause : Nat) : Fact :=
  if clause < b.clause then .unassigned
  else if clause = b.clause then if b.isPattern then .assignedIfTrue else .unassigned
  else if outlives then .assigned
  else .unassigned

/-- The facts of a variable, by clause. -/
def Chain.factsOf (c : Chain) (b : Binding) : List Fact :=
  let outlives := c.outlives b
  (List.range c.size).map (b.factIn outlives)

/-- The facts, by binding and clause. -/
def Chain.facts (c : Chain) : List (List Fact) := c.bindings.toList.map c.factsOf

/-! ### Uses -/

/-- The variable that the root of a term mentions, and whether it assigns it. -/
def Term.mention? : Term → Option (Symbol × Bool)
  | ident _ x => some (x, false)
  | assign _ x _ => some (x, true)
  | _ => none

/-- When a node gets its value, for the nodes of a term in the order of evaluation.  A node that is shared gets
its value several times, and the last one counts. -/
def settledAt (order : List Term) (i : NodeId) : Nat :=
  order.length - 1 - (order.reverse.map Term.id).idxOf i

/-- When the first test that binds the variable is made. -/
def declaredAt? (order : List Term) (x : Symbol) : Option Nat :=
  ((order.filter fun t => t.bound? = some x).map fun t => settledAt order t.id).min?

/-- The bindings whose name is `x`, among those given. -/
def Chain.named (c : Chain) (x : Symbol) (ids : List BindingId) : List BindingId :=
  ids.filter fun b => (c.binding? b).any (·.name == x)

/-- What a variable denotes that no test of its own clause binds, given the clauses before, latest first. -/
def Chain.denotedBefore (c : Chain) (x : Symbol) (before : List Link) : Resolution :=
  match before.findSome? fun l => (c.named x l.ids).getLast? with
  | some b => .earlier b
  | none => .outer

/-- What a variable denotes in a clause, given the clauses before, latest first. -/
def Chain.resolve (c : Chain) (x : Symbol) (l : Link) (before : List Link) : Resolution :=
  match (c.named x l.patterns.ids).getLast? with
  | some b => .sameClause b
  | none => c.denotedBefore x before

/-- The uses in a clause, in the order of a walk, given the clauses before, latest first. -/
def Chain.usesOf (c : Chain) (l : Link) (before : List Link) : List Use :=
  let order := l.term.settled
  l.term.walk.filterMap fun t =>
    t.mention?.map fun (x, isAssignment) =>
      let resolution := c.resolve x l before
      let early :=
        match resolution with
        | .sameClause _ => (declaredAt? order x).all fun d => settledAt order t.id < d
        | _ => false
      ⟨x, resolution, t.span, isAssignment, early⟩

/-- The uses, by clause, given the clauses before, latest first. -/
def Chain.usesFrom (c : Chain) (before : List Link) : List Link → List (List Use)
  | [] => []
  | l :: rest => c.usesOf l before :: c.usesFrom (l :: before) rest

/-- The flow of variables through the chain, if no name is ambiguous. -/
def Chain.flow (c : Chain) (names : SymbolTable) : Except (Failure Report) Flow := do
  Report.check (c.ambiguities names)
  return ⟨c.facts, c.usesFrom [] c.links⟩

/-! ### Uses without a value -/

/-- Whether a use in a clause may find no value. -/
def Flow.isUnassigned (f : Flow) (clause : Nat) (u : Use) : Bool :=
  match u.resolution with
  | .earlier b => f.fact clause b == .unassigned
  | .sameClause _ => u.beforeDeclaration && !u.isAssignment
  | .outer => false

/-- The uses that may find no value, in the clauses from place `clause` on. -/
def Flow.unassignedFrom (f : Flow) (names : SymbolTable) : Nat → List (List Use) → List Rejection
  | _, [] => []
  | clause, us :: rest =>
    ((us.filter (f.isUnassigned clause)).map fun u => ⟨clause, u.span, .unassigned (names.spelling u.name)⟩) ++
      f.unassignedFrom names (clause + 1) rest

/-- Checks that every use finds a value. -/
def Flow.requireAssigned (f : Flow) (names : SymbolTable) : Except (Failure Report) Unit :=
  Report.check (f.unassignedFrom names 0 f.uses)

end QueryPipeline
