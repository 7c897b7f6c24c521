import QueryPipeline.Expr.Pool

/-!
# Queries

A query is a row of clauses over one pool of expressions.  It starts with a source, goes on with clauses that
range over further collections, filter, and define variables, and ends with a selection.
-/

namespace QueryPipeline

/-- What a clause does. -/
inductive ClauseKind where
  /-- The first `from`: lets a variable range over the root sequence. -/
  | source
  /-- A later `from`: lets a variable range over a collection, for each element so far. -/
  | generator
  /-- `where`: goes on only if a condition holds. -/
  | filter
  /-- `let`: gives a variable a value. -/
  | define
  /-- `let` with a row of names: gives each name its part of a composite. -/
  | unpack
  /-- `select`: the result for each element. -/
  | select
deriving DecidableEq, Inhabited, Repr

namespace ClauseKind

/-- The word that a clause of this kind starts with. -/
def keyword : ClauseKind → String
  | source | generator => "from"
  | filter => "where"
  | define | unpack => "let"
  | select => "select"

/-- Whether the value of the clause's expression decides if evaluation goes on. -/
def gates (k : ClauseKind) : Bool := k == filter

/-- Whether a clause of this kind names variables of its own. -/
def bindsNames : ClauseKind → Bool
  | source | generator | define | unpack => true
  | filter | select => false

end ClauseKind

/-- The names that a clause introduces. -/
inductive Binder where
  | none
  | one (x : Symbol)
  | many (xs : List Symbol)
deriving DecidableEq, Inhabited, Repr

/-- The names, from left to right. -/
def Binder.names : Binder → List Symbol
  | none => []
  | one x => [x]
  | many xs => xs

/-- A clause as it is read. -/
structure Clause where
  kind : ClauseKind
  expr : NodeId
  binder : Binder
  /-- The type of an element of the collection, of the value defined, or of the result. -/
  ty : Ty
  span : Span
deriving DecidableEq, Inhabited, Repr

/-- The clauses of a query and the pool of their expressions. -/
structure Query where
  pool : Pool
  clauses : List Clause
deriving DecidableEq, Inhabited, Repr

end QueryPipeline
