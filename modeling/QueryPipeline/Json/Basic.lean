import QueryPipeline.Bounds

/-!
# Documents

The data that a pipeline is stored as, and the ways in which records and variants are laid out in it.  A record
is an object with a member for each field; it may also be read from an array of the fields in order.  A variant
without content is its name, and one with content an object whose only member is the content under the name.
-/

namespace QueryPipeline

/-- A document: a JSON value whose numbers are integers. -/
inductive Json where
  | null
  | bool (b : Bool)
  | num (n : Int)
  | str (s : String)
  | arr (items : List Json)
  | obj (members : List (String × Json))
deriving Inhabited, Repr

namespace Json

/-! ### Writing -/

/-- A number. -/
def nat (n : Nat) : Json := num n

/-- A variant with content. -/
def variant (name : String) (content : Json) : Json := obj [(name, content)]

/-- The documents of the members of a list. -/
def list {α : Type} (write : α → Json) (as : List α) : Json := arr (as.map write)

/-- A pair. -/
def pair (a b : Json) : Json := arr [a, b]

/-! ### Reading -/

/-- The number, if it is below the limit. -/
def natBelow? (limit : Nat) : Json → Option Nat
  | num (.ofNat n) => if n < limit then some n else none
  | _ => none

/-- The number, if it is the number of an id, a symbol or a place in a text. -/
def id? : Json → Option Nat := natBelow? idLimit

/-- The number, if it is the length of a list. -/
def length? : Json → Option Nat := natBelow? (maxListLength + 1)

/-- The number, if it counts clauses, in 64 bits. -/
def count? : Json → Option Nat := natBelow? 18446744073709551616

/-- The number, if it fits in 64 bits. -/
def int64? : Json → Option Int
  | num n => if FitsInt64 n then some n else none
  | _ => none

/-- The truth value. -/
def bool? : Json → Option Bool
  | bool b => some b
  | _ => none

/-- The member of an object under a name. -/
def member? (key : String) : List (String × Json) → Option Json
  | [] => none
  | (k, v) :: rest => if k = key then some v else member? key rest

/-- The members of an object under some names, in the order of the names. -/
def members? (members : List (String × Json)) : List String → Option (List Json)
  | [] => some []
  | key :: keys => do
    let v ← member? key members
    let vs ← members? members keys
    some (v :: vs)

/-- The fields of a record, in the order of their names.  They stand under their names in an object, or in this
order in an array. -/
def fields? (keys : List String) : Json → Option (List Json)
  | obj members => members? members keys
  | arr items => if items.length = keys.length then some items else none
  | _ => none

/-- The fields of a variant, in the order of their names.  They always stand under their names. -/
def labelled? (keys : List String) : Json → Option (List Json)
  | obj members => members? members keys
  | _ => none

/-- What is read from documents, one after the other. -/
def readAll {α : Type} (read : Json → Option α) : List Json → Option (List α)
  | [] => some []
  | j :: js => do
    let a ← read j
    let as ← readAll read js
    some (a :: as)

/-- What is read from the members of an array. -/
def list? {α : Type} (read : Json → Option α) : Json → Option (List α)
  | arr items => readAll read items
  | _ => none

/-- The two members of a pair. -/
def pair? : Json → Option (Json × Json)
  | arr [a, b] => some (a, b)
  | _ => none

/-- The name of a variant and its content, if it has any. -/
def variant? : Json → Option (String × Option Json)
  | str name => some (name, none)
  | obj [(name, content)] => some (name, some content)
  | _ => none

/-- The name of a variant without content, where null counts as none. -/
def bare? : Json → Option String
  | str name => some name
  | obj [(name, null)] => some name
  | _ => none

end Json

end QueryPipeline
