import QueryPipeline.Report.Diagnostic
import QueryPipeline.Scope.Policy

/-!
# Rejections

A query that cannot be turned into a pipeline is rejected, for one or more causes.  A rejection names the clause
and the place in the text; its message and its diagnostic follow from the cause.
-/

namespace QueryPipeline

/-- What is wrong with a query. -/
inductive Cause where
  /-- The clauses do not make a query. -/
  | malformed (reason : String)
  /-- A name is bound by two tests that cannot be made one variable. -/
  | ambiguous (name : String) (reason : String)
  /-- A pattern variable breaks the scope policy. -/
  | outOfScope (name : String) (policy : ScopePolicy) (reason : String)
  /-- A row of names does not fit the value it takes apart. -/
  | arity (names : Nat) (parts : Option Nat)
  /-- A variable is used where it may have no value. -/
  | unassigned (name : String)
  /-- A name is bound again while it is in use. -/
  | nameInUse (name : String)
  /-- A variable is assigned where it is read-only. -/
  | readOnly (name : String)
  /-- A step was handed something that an earlier step should have stopped. -/
  | internal (reason : String)
deriving DecidableEq, Inhabited, Repr

namespace Cause

/-- The code of the cause. -/
def code : Cause → ErrorCode
  | malformed _ => .malformed
  | ambiguous _ _ => .ambiguous
  | outOfScope _ _ _ => .scope
  | arity _ _ => .arity
  | unassigned _ => .unassigned
  | nameInUse _ => .nameInUse
  | readOnly _ => .readOnly
  | internal _ => .internal

/-- The variable that the cause is about. -/
def subject? : Cause → Option String
  | ambiguous x _ | outOfScope x _ _ | unassigned x | nameInUse x | readOnly x => some x
  | malformed _ | arity _ _ | internal _ => none

/-- What is said at the place in the text. -/
def label : Cause → String
  | malformed _ => "clause not allowed here"
  | ambiguous _ _ => "conflicting declaration"
  | outOfScope _ _ _ => "not visible in this clause"
  | arity _ _ => "wrong number of names"
  | unassigned _ => "not definitely assigned here"
  | nameInUse _ => "name already in use"
  | readOnly _ => "read-only here"
  | internal _ => "while lowering this clause"

/-- What could be done. -/
def suggestion? : Cause → Option String
  | outOfScope x _ _ => some s!"bind `{x}` with a `let` clause to use it in later clauses"
  | unassigned x =>
    some s!"introduce `{x}` in a `where` clause so it is assigned whenever execution continues"
  | nameInUse x => some s!"rename this `{x}` binding"
  | arity _ (some n) => some s!"bind exactly {n} name(s)"
  | malformed _ | ambiguous _ _ | arity _ none | readOnly _ | internal _ => none

end Cause

/-- What is wrong with a query, and where. -/
structure Rejection where
  clause : Nat
  span : Span
  cause : Cause
deriving DecidableEq, Inhabited, Repr

namespace Rejection

/-- What is wrong, in one line. -/
def message (r : Rejection) : String :=
  match r.cause with
  | .malformed reason => s!"malformed clause chain at clause {r.clause}: {reason}"
  | .ambiguous x reason => s!"pattern variable `{x}` is ambiguous: {reason}"
  | .outOfScope x policy reason =>
    s!"pattern variable `{x}` violates the `{policy.text}` scope policy: {reason}"
  | .arity names (some parts) => s!"deconstruction binds {names} name(s) but the value has {parts} part(s)"
  | .arity names none => s!"deconstruction binds {names} name(s) but the value has no positional parts"
  | .unassigned x => s!"`{x}` is not definitely assigned in clause {r.clause}"
  | .nameInUse x => s!"`{x}` is already in scope at clause {r.clause}"
  | .readOnly x => s!"cannot assign to query variable `{x}` in clause {r.clause}"
  | .internal reason => s!"internal lowering error at clause {r.clause}: {reason}"

/-- The rejection as it is shown. -/
def diagnostic (r : Rejection) : Diagnostic where
  code := r.cause.code
  message := r.message
  labels := [⟨r.span, r.cause.label, true⟩]
  suggestions := r.cause.suggestion?.toList
  clause := some r.clause
  subject := r.cause.subject?

/-- Whether one rejection stands before another, or level with it: by clause, then span, then variable. -/
def notAfter (a b : Rejection) : Bool :=
  if a.clause ≠ b.clause then a.clause < b.clause
  else if a.span.start ≠ b.span.start then a.span.start < b.span.start
  else if a.span.stop ≠ b.span.stop then a.span.stop < b.span.stop
  else !decide (b.cause.subject?.getD "" < a.cause.subject?.getD "")

/-- Puts a rejection before the first one that stands after it. -/
def insert (r : Rejection) : List Rejection → List Rejection
  | [] => [r]
  | a :: as => if r.notAfter a then r :: a :: as else a :: insert r as

/-- The rejections in the order of clause, span and variable. -/
def sort (rs : List Rejection) : List Rejection := rs.foldr insert []

end Rejection

/-- The rejections of one query, of which there is at least one. -/
structure Report where
  first : Rejection
  rest : List Rejection
deriving DecidableEq, Inhabited, Repr

namespace Report

/-- The report of a single rejection. -/
def one (r : Rejection) : Report := ⟨r, []⟩

/-- The report of some rejections, if there are any. -/
def ofList? : List Rejection → Option Report
  | [] => none
  | r :: rs => some ⟨r, rs⟩

/-- All the rejections, in order. -/
def toList (r : Report) : List Rejection := r.first :: r.rest

/-- The messages, each on a line of its own. -/
def text (r : Report) : String := "\n".intercalate (r.toList.map Rejection.message)

/-- The diagnostics, in order. -/
def diagnostics (r : Report) : List Diagnostic := r.toList.map Rejection.diagnostic

end Report

/-- Why a computation gave no answer. -/
inductive Failure (ε : Type) where
  /-- An id leads to no expression or binding. -/
  | dangling
  | error (e : ε)
deriving DecidableEq, Inhabited, Repr

/-- Passes if there are no rejections, and reports them otherwise. -/
def Report.check (rs : List Rejection) : Except (Failure Report) Unit :=
  match ofList? rs with
  | none => .ok ()
  | some r => .error (.error r)

end QueryPipeline
