import QueryPipeline.Carrier.Basic
import QueryPipeline.Run.Fault
import QueryPipeline.Run.Store

/-!
# Carriers and outcomes as values

How the variables of a carrier are packed into one value and taken out of it, and how an outcome tells its
carrier from a failure.
-/

namespace QueryPipeline

/-! ### Carriers -/

/-- A carrier's value from the values of its fields: a unit, the bare value, or a tuple. -/
def Value.pack : List Value → Value
  | [] => .unit
  | [v] => v
  | vs => .tuple vs

/-- The values of fields, from left to right. -/
def fieldValues (names : SymbolTable) (locals : Store) : List Field → Except Fault (List Value)
  | [] => .ok []
  | f :: rest =>
    match locals.get? f.name with
    | some v => (fieldValues names locals rest).map (v :: ·)
    | none => .error (.unbound (names.spelling f.name))

namespace Carrier

/-- The carrier's value, made of variables. -/
def pack (c : Carrier) (names : SymbolTable) (locals : Store) : Except Fault Value :=
  (fieldValues names locals c.fields).map Value.pack

/-- The variables in a carrier's value. -/
def unpack? (c : Carrier) (v : Value) : Option Store :=
  match c.fields, v with
  | [], _ => some .empty
  | [f], v => some (Store.empty.insert f.name v)
  | fields, .tuple items =>
    if items.length = fields.length then some (Store.empty.insertAll ((fields.map Field.name).zip items))
    else none
  | _, _ => none

/-- The variables with one more, if the carrier has a field for it. -/
def addTo (c : Carrier) (locals : Store) (id : BindingId) (v : Value) : Store :=
  match c.find? id with
  | some f => locals.insert f.name v
  | none => locals

end Carrier

/-! ### Outcomes -/

namespace Encoding

/-- What an outcome's value says: success with a carrier, or failure; none if it is no outcome. -/
def read? : Encoding → Value → Option (Option Value)
  | .elided, .null => some none
  | .elided, v => some (some v)
  | .tagged, .tuple [.bool true, payload] => some (some payload)
  | .tagged, .tuple [.bool false, _] => some none
  | .tagged, _ => none

/-- The value of an outcome. -/
def write : Encoding → Option Value → Value
  | .elided, some v => v
  | .elided, none => .null
  | .tagged, some v => .tuple [.bool true, v]
  | .tagged, none => .tuple [.bool false, .null]

end Encoding

/-- The variables in a value of the shape; an outcome has to be a success. -/
def Shape.unpack? : Shape → Value → Option Store
  | .carrier c, v => c.unpack? v
  | .outcome c encoding, v => (encoding.read? v).join.bind c.unpack?
  | .projection _, _ => none

end QueryPipeline
