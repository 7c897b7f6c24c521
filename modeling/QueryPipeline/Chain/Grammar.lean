import QueryPipeline.Query.Clause
import QueryPipeline.Report.Rejection

/-!
# The grammar of queries

A query is one source, then any number of generators, filters and definitions, then one selection.  Each
clause introduces the names that its kind asks for, and has an expression.  `Query.grammarFault?` finds the
first clause where this fails.
-/

namespace QueryPipeline

/-- How a row of clauses fails to be a query. -/
inductive GrammarFault where
  | noClauses
  | sourceNotFirst
  | selectNotLast
  | startsWithoutSource
  | endsWithoutSelect
  | badBinder (kind : ClauseKind)
  | noExpression
deriving DecidableEq, Inhabited, Repr

/-- The fault in words. -/
def GrammarFault.message : GrammarFault → String
  | noClauses => "a query needs at least `from` and `select`"
  | sourceNotFirst => "the source `from` must come first"
  | selectNotLast => "`select` must be the last clause"
  | startsWithoutSource => "a query must start with `from`"
  | endsWithoutSelect => "a query must end with `select`"
  | badBinder kind => s!"`{kind.keyword}` clause has an invalid binding pattern"
  | noExpression => "clause expression is missing"

/-- Whether the clause introduces the names that its kind asks for. -/
def Clause.binderFits (c : Clause) : Bool :=
  match c.kind, c.binder with
  | .source, .one x | .generator, .one x | .define, .one x => x.isPresent
  | .unpack, .many xs => xs.all Symbol.isPresent
  | .filter, .none | .select, .none => true
  | _, _ => false

/-- What is wrong with the clause at place `index` of a query whose last clause is at place `last`. -/
def Clause.grammarFault? (pool : Pool) (last index : Nat) (c : Clause) : Option GrammarFault :=
  if c.kind = .source ∧ index ≠ 0 then some .sourceNotFirst
  else if c.kind = .select ∧ index ≠ last then some .selectNotLast
  else if index = 0 ∧ c.kind ≠ .source then some .startsWithoutSource
  else if index = last ∧ c.kind ≠ .select then some .endsWithoutSelect
  else if !c.binderFits then some (.badBinder c.kind)
  else if !c.expr.isValid || (pool.get? c.expr).isNone then some .noExpression
  else none

/-- The first clause from place `index` on that breaks the grammar. -/
def grammarFaultFrom? (pool : Pool) (last : Nat) : Nat → List Clause → Option Rejection
  | _, [] => none
  | index, c :: rest =>
    match c.grammarFault? pool last index with
    | some fault => some ⟨index, c.span, .malformed fault.message⟩
    | none => grammarFaultFrom? pool last (index + 1) rest

/-- The first clause of the query that breaks the grammar. -/
def Query.grammarFault? (q : Query) : Option Rejection :=
  match q.clauses with
  | [] => some ⟨0, .nowhere, .malformed GrammarFault.noClauses.message⟩
  | clauses => grammarFaultFrom? q.pool (clauses.length - 1) 0 clauses

end QueryPipeline
