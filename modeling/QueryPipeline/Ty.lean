/-!
# Static types

The types that clauses and type tests speak of, and how they are written.
-/

namespace QueryPipeline

/-- A static type. -/
inductive Ty where
  | unit
  | bool
  | int
  | str
  /-- Any value, null among them. -/
  | object
  /-- A value of the given type, or null. -/
  | nullable (t : Ty)
  | tuple (parts : List Ty)
  | list (element : Ty)
  /-- Nothing is known of the value. -/
  | unknown
deriving Inhabited, Repr

namespace Ty

/-! ### Equality -/

mutual

/-- Whether two types are the same. -/
def same : Ty → Ty → Bool
  | unit, unit | bool, bool | int, int | str, str | object, object | unknown, unknown => true
  | nullable a, nullable b => same a b
  | tuple as, tuple bs => sameAll as bs
  | list a, list b => same a b
  | _, _ => false

/-- Whether two lists of types are the same, place by place. -/
def sameAll : List Ty → List Ty → Bool
  | [], [] => true
  | a :: as, b :: bs => same a b && sameAll as bs
  | _, _ => false

end

mutual

theorem same_iff : ∀ a b : Ty, same a b = true ↔ a = b
  | a, b => by
    cases a <;> cases b <;> simp [same, same_iff, sameAll_iff]

theorem sameAll_iff : ∀ as bs : List Ty, sameAll as bs = true ↔ as = bs
  | [], [] => by simp [sameAll]
  | [], _ :: _ => by simp [sameAll]
  | _ :: _, [] => by simp [sameAll]
  | a :: as, b :: bs => by simp [sameAll, same_iff a b, sameAll_iff as bs]

end

instance : DecidableEq Ty := fun a b => decidable_of_iff _ (same_iff a b)

/-! ### Parts -/

/-- Whether null is a value of the type, as far as is known. -/
def allowsNull : Ty → Bool
  | object | nullable _ | unknown => true
  | _ => false

/-- The number of parts of a tuple type. -/
def arity? : Ty → Option Nat
  | tuple parts => some parts.length
  | _ => none

/-- The type of a part of a tuple type; nothing is known of a part that is not there. -/
def part (t : Ty) (i : Nat) : Ty :=
  match t with
  | tuple parts => (parts[i]?).getD unknown
  | _ => unknown

/-- The type of the members of a list type. -/
def element : Ty → Ty
  | list t => t
  | _ => unknown

/-! ### Text -/

mutual

/-- How the type is written. -/
def text : Ty → String
  | unit => "()"
  | bool => "bool"
  | int => "int"
  | str => "str"
  | object => "object"
  | nullable t => text t ++ "?"
  | tuple parts => "(" ++ ", ".intercalate (texts parts) ++ ")"
  | list t => "[" ++ text t ++ "]"
  | unknown => "?"

/-- How the types of a list are written. -/
def texts : List Ty → List String
  | [] => []
  | t :: ts => text t :: texts ts

end

end Ty

end QueryPipeline
