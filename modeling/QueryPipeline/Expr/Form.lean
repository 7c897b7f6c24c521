import QueryPipeline.Span
import QueryPipeline.Symbol
import QueryPipeline.Ty

/-!
# Forms of expressions

An expression node has a form, which names its operands by their ids, and a span.  Two forms are tests that can
fail: a type test and an integer parse.  A test that succeeds binds a variable, if it names one.
-/

namespace QueryPipeline

/-- An expression node, by its place in a pool. -/
structure NodeId where
  index : Nat
deriving DecidableEq, Inhabited, Repr

namespace NodeId

/-- The id that stands for "no expression". -/
def absent : NodeId := ⟨4294967295⟩

/-- Whether the id stands for an expression at all. -/
def isValid (i : NodeId) : Bool := i != absent

/-- The id as shown to a reader of the program's internals. -/
def text (i : NodeId) : String := if i.isValid then s!"ExprId({i.index})" else "ExprId::INVALID"

end NodeId

/-- A stretch of a pool's table of lists. -/
structure Slice where
  start : Nat
  len : Nat
deriving DecidableEq, Inhabited, Repr

namespace Slice

/-- Whether the stretch holds nothing. -/
def isEmpty (s : Slice) : Bool := s.len == 0

/-- The stretch as shown to a reader of the program's internals. -/
def text (s : Slice) : String := s!"ExprRange({s.start}..{s.start + s.len})"

end Slice

/-- A constant. -/
inductive Literal where
  | int (n : Int)
  | bool (b : Bool)
  | str (s : Symbol)
  | null
deriving DecidableEq, Inhabited, Repr

/-- A connective, whose right operand is evaluated only if the left one leaves the answer open. -/
inductive Connective where
  | and
  | or
deriving DecidableEq, Inhabited, Repr

/-- How a connective is written. -/
def Connective.text : Connective → String
  | and => "&&"
  | or => "||"

/-- An operator, both of whose operands are always evaluated. -/
inductive Operator where
  | add
  | sub
  | mul
  | eq
  | notEq
  | lt
  | gt
deriving DecidableEq, Inhabited, Repr

/-- How an operator is written. -/
def Operator.text : Operator → String
  | add => "+"
  | sub => "-"
  | mul => "*"
  | eq => "=="
  | notEq => "!="
  | lt => "<"
  | gt => ">"

/-- A question about a value that binds a variable when the answer is yes. -/
inductive Test where
  /-- Is it a value of this type? -/
  | hasType (ty : Ty)
  /-- Is it the text of an integer? -/
  | parsesInt
deriving DecidableEq, Inhabited, Repr

/-- The static type of the variable that a test binds. -/
def Test.boundTy : Test → Ty
  | hasType ty => ty
  | parsesInt => .int

/-- What kind of composite a row of expressions makes. -/
inductive Composite where
  | tuple
  | list
deriving DecidableEq, Inhabited, Repr

/-- The form of an expression node. -/
inductive Form where
  | literal (l : Literal)
  /-- A variable of the query or of the code around it. -/
  | ident (x : Symbol)
  | connective (c : Connective) (left right : NodeId)
  | operator (op : Operator) (left right : NodeId)
  | not (operand : NodeId)
  | neg (operand : NodeId)
  /-- A test of the operand that binds `x` on success; a blank `x` binds nothing. -/
  | test (t : Test) (operand : NodeId) (x : Symbol)
  /-- An assignment, whose value is the value assigned. -/
  | assign (x : Symbol) (value : NodeId)
  | row (kind : Composite) (items : Slice)
  /-- The part of a composite at a position. -/
  | part (receiver : NodeId) (position : Nat)
deriving DecidableEq, Inhabited, Repr

namespace Form

/-- The variable that a test of this form binds. -/
def bound? : Form → Option Symbol
  | test _ _ x => if x.isPresent then some x else none
  | _ => none

/-- The static type of the variable that a test of this form binds. -/
def boundTy : Form → Ty
  | test t _ _ => t.boundTy
  | _ => .unknown

end Form

/-- An expression node. -/
structure Node where
  form : Form
  span : Span
deriving DecidableEq, Inhabited, Repr

end QueryPipeline
