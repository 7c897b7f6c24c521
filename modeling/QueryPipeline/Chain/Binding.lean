import QueryPipeline.Bounds
import QueryPipeline.Expr.Assigned

/-!
# Bindings

Every variable that a clause introduces has a binding.  A range variable is named by the clause itself and has
its value from the next clause on; a pattern variable is bound by a test inside the clause's expression.
-/

namespace QueryPipeline

/-- A binding, by its place in a chain's table. -/
structure BindingId where
  index : Nat
deriving DecidableEq, Inhabited, Repr

/-- The id as shown to a reader of the program's internals. -/
def BindingId.text (b : BindingId) : String := s!"b{b.index}"

/-- A stretch of a chain's table of bindings. -/
structure BindingRange where
  start : Nat
  len : Nat
deriving DecidableEq, Inhabited, Repr

namespace BindingRange

/-- The stretch of `n` bindings from `start` on; a stretch holds no more than the longest list. -/
def ofCount (start n : Nat) : BindingRange := ⟨start, min n maxListLength⟩

/-- The bindings of the stretch, in order. -/
def ids (r : BindingRange) : List BindingId := (List.range' r.start r.len).map BindingId.mk

/-- Whether the stretch holds nothing. -/
def isEmpty (r : BindingRange) : Bool := r.len == 0

end BindingRange

/-- How a variable comes to its value. -/
inductive VariableKind where
  /-- Named by its clause. -/
  | range
  /-- Bound by a test, and surely assigned under a condition. -/
  | pattern (condition : Condition)
deriving DecidableEq, Inhabited, Repr

/-- Where a variable may be assigned. -/
inductive Assignability where
  | inOwnClause
  | never
deriving DecidableEq, Inhabited, Repr

/-- A variable that a clause introduces. -/
structure Binding where
  name : Symbol
  ty : Ty
  kind : VariableKind
  /-- The clause that introduces the variable. -/
  clause : Nat
  span : Span
deriving DecidableEq, Inhabited, Repr

namespace Binding

/-- Whether the variable is bound by a test. -/
def isPattern (b : Binding) : Bool :=
  match b.kind with
  | .range => false
  | .pattern _ => true

/-- Where the variable may be assigned: a pattern variable within its clause, a range variable nowhere. -/
def assignability (b : Binding) : Assignability := if b.isPattern then .inOwnClause else .never

/-- Whether the variable may be assigned in the given clause. -/
def isAssignableIn (b : Binding) (clause : Nat) : Bool := b.isPattern && clause == b.clause

end Binding

end QueryPipeline
