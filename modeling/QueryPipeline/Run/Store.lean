import QueryPipeline.Run.Value
import QueryPipeline.Symbol

/-!
# Stores

A store holds the values of variables, each name once.
-/

namespace QueryPipeline

/-- The values of variables. -/
structure Store where
  entries : List (Symbol × Value)
deriving DecidableEq, Inhabited, Repr

namespace Store

/-- The store without variables. -/
def empty : Store := ⟨[]⟩

/-- The store of the given variables, of which the first counts if a name comes twice. -/
def ofList (entries : List (Symbol × Value)) : Store := ⟨entries⟩

/-- The value of a variable among entries. -/
def find? (x : Symbol) : List (Symbol × Value) → Option Value
  | [] => none
  | e :: rest => if e.1 = x then some e.2 else find? x rest

/-- The value of a variable. -/
def get? (s : Store) (x : Symbol) : Option Value := find? x s.entries

/-- Whether the variable has a value. -/
def contains (s : Store) (x : Symbol) : Bool := (s.get? x).isSome

/-- The entries with a new value for a variable. -/
def put (x : Symbol) (v : Value) : List (Symbol × Value) → List (Symbol × Value)
  | [] => [(x, v)]
  | e :: rest => if e.1 = x then (x, v) :: rest else e :: put x v rest

/-- Gives a variable a value, in place of the one it may have. -/
def insert (s : Store) (x : Symbol) (v : Value) : Store := ⟨put x v s.entries⟩

/-- Gives variables values, one after the other. -/
def insertAll (s : Store) (es : List (Symbol × Value)) : Store := es.foldl (fun s e => s.insert e.1 e.2) s

theorem find?_put (x y : Symbol) (v : Value) (es : List (Symbol × Value)) :
    find? y (put x v es) = if x = y then some v else find? y es := by
  induction es with
  | nil => simp [put, find?]
  | cons e rest ih =>
    by_cases hx : e.1 = x
    · by_cases hy : x = y <;> simp [put, find?, hx, hy]
    · by_cases hy : x = y
      · subst hy
        simp [put, find?, hx, ih]
      · simp [put, find?, hx, hy, ih]

theorem get?_insert (s : Store) (x y : Symbol) (v : Value) :
    (s.insert x v).get? y = if x = y then some v else s.get? y :=
  find?_put x y v s.entries

end Store

end QueryPipeline
