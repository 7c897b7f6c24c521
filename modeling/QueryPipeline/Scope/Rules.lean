import QueryPipeline.Flow.Basic

/-!
# Rules of scope

What a policy asks, and what every policy asks: a variable is assigned only by the clause that binds it, and no
clause binds a name that is still in use.  All that breaks the rules is reported.
-/

namespace QueryPipeline

namespace Chain

/-- The uses of the flow, each with its clause, in the order of the clauses. -/
def clauseUses (c : Chain) (f : Flow) : List (Nat × Use) :=
  (List.range c.size).flatMap fun k => (f.usesIn k).map fun u => (k, u)

/-- The uses of a pattern variable after its clause. -/
def escapes (c : Chain) (f : Flow) (names : SymbolTable) (policy : ScopePolicy) : List Rejection :=
  (c.clauseUses f).filterMap fun (k, u) =>
    match u.resolution with
    | .earlier id =>
      match c.binding? id with
      | some b =>
        if b.isPattern then
          some ⟨k, u.span, .outOfScope (names.spelling b.name) policy
            s!"it is introduced in clause {b.clause} and used in clause {k}"⟩
        else none
      | none => none
    | _ => none

/-- The pattern variables whose name an earlier pattern variable has, where `before` came earlier. -/
def repeatsFrom (names : SymbolTable) (policy : ScopePolicy) : (before : List Binding) → List Binding →
    List Rejection
  | _, [] => []
  | before, b :: rest =>
    match before.find? fun a => a.name == b.name with
    | some a =>
      ⟨b.clause, b.span, .outOfScope (names.spelling b.name) policy
        s!"the name is also bound by a pattern in clause {a.clause}"⟩ :: repeatsFrom names policy before rest
    | none => repeatsFrom names policy (before ++ [b]) rest

/-- The pattern variables whose name an earlier pattern variable has. -/
def repeats (c : Chain) (names : SymbolTable) (policy : ScopePolicy) : List Rejection :=
  repeatsFrom names policy [] (c.bindings.toList.filter Binding.isPattern)

/-- The assignments to a variable where it is read-only. -/
def readOnlyAssignments (c : Chain) (f : Flow) (names : SymbolTable) : List Rejection :=
  (c.clauseUses f).filterMap fun (k, u) =>
    match u.resolution.binding? with
    | some id =>
      if u.isAssignment && (u.beforeDeclaration || !(c.binding? id).any (·.isAssignableIn k)) then
        some ⟨k, u.span, .readOnly (names.spelling u.name)⟩
      else none
    | none => none

/-- Whether an earlier variable still has the name of the binding, in the binding's clause.  A range variable
always has.  A pattern variable has if the policy lets it out and it has a value there, and two pattern
variables are left to the policy's own rule. -/
def isHeld (c : Chain) (f : Flow) (policy : ScopePolicy) (clause : Nat) (b : Binding) (before : List BindingId) :
    Bool :=
  before.any fun id =>
    match c.binding? id with
    | some held =>
      held.name == b.name &&
        (!held.isPattern || (policy.letsOut && !b.isPattern && f.fact clause id == .assigned))
    | none => false

/-- The bindings of one clause whose name is in use, where `own` are the names that the clause has bound so far
and `before` the bindings of the clauses before. -/
def rebindingsIn (c : Chain) (f : Flow) (names : SymbolTable) (policy : ScopePolicy) (clause : Nat)
    (before : List BindingId) : (own : List Symbol) → List BindingId → List Rejection
  | _, [] => []
  | own, id :: rest =>
    match c.binding? id with
    | some b =>
      let later := c.rebindingsIn f names policy clause before (b.name :: own) rest
      if own.contains b.name || c.isHeld f policy clause b before then
        ⟨clause, b.span, .nameInUse (names.spelling b.name)⟩ :: later
      else later
    | none => c.rebindingsIn f names policy clause before own rest

/-- The bindings whose name is in use, in the clauses from place `clause` on, where `before` are the bindings of
the clauses before. -/
def rebindingsFrom (c : Chain) (f : Flow) (names : SymbolTable) (policy : ScopePolicy) :
    (clause : Nat) → (before : List BindingId) → List Link → List Rejection
  | _, _, [] => []
  | clause, before, l :: rest =>
    c.rebindingsIn f names policy clause before [] l.ids ++
      c.rebindingsFrom f names policy (clause + 1) (before ++ l.ids) rest

/-- All that breaks the rules of scope: the policy's rule first, then assignments, then rebindings. -/
def scopeFaults (c : Chain) (f : Flow) (names : SymbolTable) (policy : ScopePolicy) : List Rejection :=
  (match policy with
    | .disallow => c.escapes f names policy
    | .unique => c.repeats names policy) ++
  c.readOnlyAssignments f names ++
  c.rebindingsFrom f names policy 0 [] c.links

/-- Checks the rules of scope. -/
def requireScope (c : Chain) (f : Flow) (names : SymbolTable) (policy : ScopePolicy) :
    Except (Failure Report) Unit :=
  Report.check (c.scopeFaults f names policy)

end Chain

end QueryPipeline
