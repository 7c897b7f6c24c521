import QueryPipeline.Chain.Binding

/-!
# Carriers

The value that flows from one stage to the next carries variables.  A carrier without fields is a unit, one
with a single field is the bare value of its variable, and one with more fields is a tuple.

A filter that binds variables makes an outcome: a carrier, or a mark that the condition failed.
-/

namespace QueryPipeline

/-- A variable in a carrier. -/
structure Field where
  binding : BindingId
  name : Symbol
  ty : Ty
deriving DecidableEq, Inhabited, Repr

/-- The variables that a value carries, in order. -/
structure Carrier where
  id : Nat
  fields : List Field
deriving DecidableEq, Inhabited, Repr

namespace Carrier

/-- Whether nothing is carried. -/
def isUnit (c : Carrier) : Bool := c.fields.isEmpty

/-- Whether the value is that of a single variable. -/
def isBare (c : Carrier) : Bool := c.fields.length == 1

/-- The field of a binding. -/
def find? (c : Carrier) (b : BindingId) : Option Field := c.fields.find? fun f => f.binding == b

/-- Whether the binding is carried. -/
def contains (c : Carrier) (b : BindingId) : Bool := c.fields.any fun f => f.binding == b

/-- The place of a binding among the fields. -/
def position? (c : Carrier) (b : BindingId) : Option Nat := c.fields.findIdx? fun f => f.binding == b

/-- The bindings carried, in order. -/
def bindings (c : Carrier) : List BindingId := c.fields.map Field.binding

/-- The carrier as shown to a reader of the program's internals. -/
def text (c : Carrier) : String := s!"C{c.id}"

end Carrier

/-- How an outcome tells success from failure. -/
inductive Encoding where
  /-- Failure is null, success the carrier itself. -/
  | elided
  /-- A pair of a truth value and the carrier. -/
  | tagged
deriving DecidableEq, Inhabited, Repr

/-- Null cannot stand for failure if the carrier can itself be null, which takes a single field. -/
def Carrier.encoding (c : Carrier) : Encoding :=
  match c.fields with
  | [f] => if f.ty.allowsNull then .tagged else .elided
  | _ => .elided

/-- What a stage takes in or gives out. -/
inductive Shape where
  | carrier (c : Carrier)
  /-- The carrier, or a mark of failure. -/
  | outcome (payload : Carrier) (encoding : Encoding)
  /-- A result, which carries no variables. -/
  | projection (ty : Ty)
deriving DecidableEq, Inhabited, Repr

/-- The carrier whose variables can be read, given that an outcome is a success. -/
def Shape.carrier? : Shape → Option Carrier
  | carrier c | outcome c _ => some c
  | projection _ => none

end QueryPipeline
