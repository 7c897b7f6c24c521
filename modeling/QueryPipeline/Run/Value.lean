import QueryPipeline.Text.Quoted
import QueryPipeline.Ty

/-!
# Values

The values that flow through a pipeline, how they are written, and which type tests they pass.
-/

namespace QueryPipeline

/-- A value. -/
inductive Value where
  | unit
  | bool (b : Bool)
  | int (n : Int)
  | str (s : String)
  | null
  | tuple (items : List Value)
  | list (items : List Value)
deriving Inhabited, Repr

namespace Value

/-! ### Equality -/

mutual

/-- Whether two values are the same. -/
def same : Value → Value → Bool
  | unit, unit | null, null => true
  | bool a, bool b => a == b
  | int a, int b => a == b
  | str a, str b => a == b
  | tuple as, tuple bs => sameAll as bs
  | list as, list bs => sameAll as bs
  | _, _ => false

/-- Whether two lists of values are the same, place by place. -/
def sameAll : List Value → List Value → Bool
  | [], [] => true
  | a :: as, b :: bs => same a b && sameAll as bs
  | _, _ => false

end

mutual

theorem same_iff : ∀ a b : Value, same a b = true ↔ a = b
  | a, b => by
    cases a <;> cases b <;> simp [same, sameAll_iff]

theorem sameAll_iff : ∀ as bs : List Value, sameAll as bs = true ↔ as = bs
  | [], [] => by simp [sameAll]
  | [], _ :: _ => by simp [sameAll]
  | _ :: _, [] => by simp [sameAll]
  | a :: as, b :: bs => by simp [sameAll, same_iff a b, sameAll_iff as bs]

end

instance : DecidableEq Value := fun a b => decidable_of_iff _ (same_iff a b)

/-! ### Text -/

mutual

/-- How the value is written. -/
def text : Value → String
  | unit => "()"
  | bool b => if b then "true" else "false"
  | int n => toString n
  | str s => Text.quoted s
  | null => "null"
  | tuple items => "(" ++ ", ".intercalate (texts items) ++ ")"
  | list items => "[" ++ ", ".intercalate (texts items) ++ "]"

/-- How the values of a list are written. -/
def texts : List Value → List String
  | [] => []
  | v :: vs => text v :: texts vs

end

/-! ### Parts -/

/-- The members of a composite. -/
def members? : Value → Option (List Value)
  | tuple items | list items => some items
  | _ => none

/-- The part of a composite at a position. -/
def part? (v : Value) (position : Nat) : Option Value := v.members?.bind fun items => items[position]?

end Value

/-! ### Type tests -/

mutual

/-- Whether a value passes a test for the type.  Null passes none. -/
def Ty.accepts : Ty → Value → Bool
  | _, .null => false
  | .unknown, _ | .object, _ => true
  | .nullable t, v => accepts t v
  | .unit, .unit | .bool, .bool _ | .int, .int _ | .str, .str _ => true
  | .tuple parts, .tuple items => acceptsEach parts items
  | .list t, .list items => items.all (accepts t)
  | _, _ => false

/-- Whether the values pass tests for the types, place by place, and there are as many. -/
def Ty.acceptsEach : List Ty → List Value → Bool
  | [], [] => true
  | t :: ts, v :: vs => accepts t v && acceptsEach ts vs
  | _, _ => false

end

end QueryPipeline
