import QueryPipeline.Expr.Form
import QueryPipeline.Run.Fault
import QueryPipeline.Text.Numeral

/-!
# Operations on values

What the constants, operators and composites of expressions compute, and the faults they end in.
-/

namespace QueryPipeline

/-- The value as a truth value. -/
def Value.asBool : Value → Except Fault Bool
  | .bool b => .ok b
  | v => .error (.typeMismatch .bool v)

/-- The value as an integer. -/
def Value.asInt : Value → Except Fault Int
  | .int n => .ok n
  | v => .error (.typeMismatch .int v)

/-- An integer, if it fits in 64 bits. -/
def Value.ofInt (n : Int) : Except Fault Value := if FitsInt64 n then .ok (.int n) else .error .overflow

/-- The integer that a value is the text of.  Null is the text of none. -/
def Value.parseInt : Value → Except Fault (Option Int)
  | .str s => .ok (Text.readInt? s)
  | .null => .ok none
  | v => .error (.typeMismatch .str v)

/-- The part of a composite at a position. -/
def Value.part (v : Value) (position : Nat) : Except Fault Value :=
  match v.part? position with
  | some w => .ok w
  | none => .error (.missingPart position v)

/-- The members of a list. -/
def Value.elements : Value → Except Fault (List Value)
  | .list items => .ok items
  | v => .error (.notASequence v)

/-- The value of an operator on two integers. -/
def Operator.onInts (op : Operator) (m n : Int) : Except Fault Value :=
  match op with
  | .add => Value.ofInt (m + n)
  | .sub => Value.ofInt (m - n)
  | .mul => Value.ofInt (m * n)
  | .eq => .ok (.bool (m == n))
  | .notEq => .ok (.bool (m != n))
  | .lt => .ok (.bool (m < n))
  | .gt => .ok (.bool (n < m))

/-- The value of an operator.  Any two values can be compared for equality, and texts can be joined; all else
is for integers. -/
def Operator.apply (op : Operator) (a b : Value) : Except Fault Value :=
  match op, a, b with
  | .eq, a, b => .ok (.bool (a == b))
  | .notEq, a, b => .ok (.bool (a != b))
  | .add, .str s, .str t => .ok (.str (s ++ t))
  | op, .int m, .int n => op.onInts m n
  | _, .int _, b => .error (.typeMismatch .int b)
  | _, a, _ => .error (.typeMismatch .int a)

/-- Whether the left operand leaves the answer of a connective open. -/
def Connective.isOpen : Connective → Bool → Bool
  | .and, b => b
  | .or, b => !b

/-- The value of a constant. -/
def Literal.value (names : SymbolTable) : Literal → Value
  | .int n => .int n
  | .bool b => .bool b
  | .str s => .str (names.spelling s)
  | .null => .null

/-- A row of values as a composite. -/
def Composite.value : Composite → List Value → Value
  | .tuple, items => .tuple items
  | .list, items => .list items

end QueryPipeline
