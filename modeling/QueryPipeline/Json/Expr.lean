import QueryPipeline.Expr.Pool
import QueryPipeline.Json.Basic

/-!
# Expressions as documents

How types, expression nodes and pools are written as documents and read back.
-/

namespace QueryPipeline

/-! ### Types -/

namespace Ty

/-- The name of a type without parts, as a variant. -/
def tag? : Ty → Option String
  | unit => some "Unit"
  | bool => some "Bool"
  | int => some "Int"
  | str => some "Str"
  | object => some "Object"
  | unknown => some "Unknown"
  | nullable _ | tuple _ | list _ => none

/-- The type without parts that has the name. -/
def ofTag? (s : String) : Option Ty := [unit, bool, int, str, object, unknown].find? fun t => t.tag? = some s

mutual

/-- The type as a document. -/
def toJson : Ty → Json
  | unit => .str "Unit"
  | bool => .str "Bool"
  | int => .str "Int"
  | str => .str "Str"
  | object => .str "Object"
  | unknown => .str "Unknown"
  | nullable t => .variant "Nullable" (toJson t)
  | tuple parts => .variant "Tuple" (.arr (toJsons parts))
  | list t => .variant "List" (toJson t)

/-- The types as documents. -/
def toJsons : List Ty → List Json
  | [] => []
  | t :: ts => toJson t :: toJsons ts

end

mutual

/-- The type that a document writes. -/
def ofJson? : Json → Option Ty
  | .str name => ofTag? name
  | .obj [(name, content)] =>
    if name = "Nullable" then (ofJson? content).map nullable
    else if name = "List" then (ofJson? content).map list
    else
      match content with
      | .arr items => if name = "Tuple" then (ofJsons? items).map tuple else none
      | .null => ofTag? name
      | _ => none
  | _ => none

/-- The types that documents write. -/
def ofJsons? : List Json → Option (List Ty)
  | [] => some []
  | j :: js =>
    match ofJson? j, ofJsons? js with
    | some t, some ts => some (t :: ts)
    | _, _ => none

end

end Ty

/-! ### Nodes -/

/-- The id as a document. -/
def NodeId.toJson (i : NodeId) : Json := .nat i.index

/-- The id that a document writes. -/
def NodeId.ofJson? (j : Json) : Option NodeId := j.id?.map NodeId.mk

/-- The symbol as a document. -/
def Symbol.toJson (x : Symbol) : Json := .nat x.index

/-- The symbol that a document writes. -/
def Symbol.ofJson? (j : Json) : Option Symbol := j.id?.map Symbol.mk

/-- The span as a document. -/
def Span.toJson (s : Span) : Json := .obj [("start", .nat s.start), ("end", .nat s.stop)]

/-- The span that a document writes. -/
def Span.ofJson? (j : Json) : Option Span := do
  match ← j.fields? ["start", "end"] with
  | [start, stop] => some ⟨← start.id?, ← stop.id?⟩
  | _ => none

/-- The slice as a document. -/
def Slice.toJson (s : Slice) : Json := .obj [("start", .nat s.start), ("len", .nat s.len)]

/-- The slice that a document writes. -/
def Slice.ofJson? (j : Json) : Option Slice := do
  match ← j.fields? ["start", "len"] with
  | [start, len] => some ⟨← start.id?, ← len.length?⟩
  | _ => none

/-- The name of a connective. -/
def Connective.tag : Connective → String
  | and => "And"
  | or => "Or"

/-- The name of an operator. -/
def Operator.tag : Operator → String
  | add => "Add"
  | sub => "Sub"
  | mul => "Mul"
  | eq => "Eq"
  | notEq => "NotEq"
  | lt => "Lt"
  | gt => "Gt"

/-- The connective that has the name. -/
def Connective.ofTag? (s : String) : Option Connective := [and, or].find? fun c => c.tag == s

/-- The operator that has the name. -/
def Operator.ofTag? (s : String) : Option Operator :=
  [add, sub, mul, eq, notEq, lt, gt].find? fun op => op.tag == s

namespace Form

/-- A connective or an operator on two nodes. -/
def binaryJson (name : String) (l r : NodeId) : Json :=
  .variant "Binary" (.obj [("op", .str name), ("left", l.toJson), ("right", r.toJson)])

/-- A sign before a node. -/
def unaryJson (name : String) (e : NodeId) : Json :=
  .variant "Unary" (.obj [("op", .str name), ("operand", e.toJson)])

/-- The form as a document. -/
def toJson : Form → Json
  | literal (.int n) => .variant "Int" (.num n)
  | literal (.bool b) => .variant "Bool" (.bool b)
  | literal (.str s) => .variant "Str" s.toJson
  | literal .null => .str "Null"
  | ident x => .variant "Ident" x.toJson
  | connective c l r => binaryJson c.tag l r
  | operator op l r => binaryJson op.tag l r
  | not e => unaryJson "Not" e
  | neg e => unaryJson "Neg" e
  | test (.hasType ty) e x =>
    .variant "TypeTest" (.obj [("operand", e.toJson), ("ty", ty.toJson), ("binding", x.toJson)])
  | test .parsesInt e x => .variant "TryParse" (.obj [("operand", e.toJson), ("out", x.toJson)])
  | assign x e => .variant "Assign" (.obj [("target", x.toJson), ("value", e.toJson)])
  | row .tuple s => .variant "Tuple" s.toJson
  | row .list s => .variant "List" s.toJson
  | part e k => .variant "Field" (.obj [("receiver", e.toJson), ("index", .nat k)])

/-- The connective or the operator on two nodes that fields write. -/
def ofBinary? (op left right : Json) : Option Form := do
  let name ← op.bare?
  let l ← NodeId.ofJson? left
  let r ← NodeId.ofJson? right
  ((Connective.ofTag? name).map fun c => connective c l r).or
    ((Operator.ofTag? name).map fun op => operator op l r)

/-- The sign before a node that fields write. -/
def ofUnary? (op operand : Json) : Option Form := do
  let name ← op.bare?
  let e ← NodeId.ofJson? operand
  if name = "Not" then some (not e) else if name = "Neg" then some (neg e) else none

/-- The form that the content of a variant writes. -/
def ofVariant? (name : String) (content : Json) : Option Form :=
  match name with
  | "Int" => content.int64?.map fun n => literal (.int n)
  | "Bool" => content.bool?.map fun b => literal (.bool b)
  | "Str" => (Symbol.ofJson? content).map fun s => literal (.str s)
  | "Null" =>
    match content with
    | .null => some (literal .null)
    | _ => none
  | "Ident" => (Symbol.ofJson? content).map ident
  | "Binary" => do
    match ← content.labelled? ["op", "left", "right"] with
    | [op, left, right] => ofBinary? op left right
    | _ => none
  | "Unary" => do
    match ← content.labelled? ["op", "operand"] with
    | [op, operand] => ofUnary? op operand
    | _ => none
  | "TypeTest" => do
    match ← content.labelled? ["operand", "ty", "binding"] with
    | [e, ty, x] => some (test (.hasType (← Ty.ofJson? ty)) (← NodeId.ofJson? e) (← Symbol.ofJson? x))
    | _ => none
  | "TryParse" => do
    match ← content.labelled? ["operand", "out"] with
    | [e, x] => some (test .parsesInt (← NodeId.ofJson? e) (← Symbol.ofJson? x))
    | _ => none
  | "Assign" => do
    match ← content.labelled? ["target", "value"] with
    | [x, e] => some (assign (← Symbol.ofJson? x) (← NodeId.ofJson? e))
    | _ => none
  | "Tuple" => (Slice.ofJson? content).map (row .tuple)
  | "List" => (Slice.ofJson? content).map (row .list)
  | "Field" => do
    match ← content.labelled? ["receiver", "index"] with
    | [e, k] => some (part (← NodeId.ofJson? e) (← k.id?))
    | _ => none
  | _ => none

/-- The form that a document writes. -/
def ofJson? (j : Json) : Option Form :=
  match j.variant? with
  | some (name, some content) => ofVariant? name content
  | some (name, none) => if name = "Null" then some (literal .null) else none
  | none => none

end Form

/-- The node as a document. -/
def Node.toJson (n : Node) : Json := .obj [("kind", n.form.toJson), ("span", n.span.toJson)]

/-- The node that a document writes. -/
def Node.ofJson? (j : Json) : Option Node := do
  match ← j.fields? ["kind", "span"] with
  | [form, span] => some ⟨← Form.ofJson? form, ← Span.ofJson? span⟩
  | _ => none

/-! ### Pools -/

/-- The pool as a document. -/
def Pool.toJson (p : Pool) : Json :=
  .obj [("exprs", .list Node.toJson p.nodes.toList), ("expr_lists", .list NodeId.toJson p.lists.toList)]

/-- The pool that a document writes. -/
def Pool.ofJson? (j : Json) : Option Pool := do
  match ← j.fields? ["exprs", "expr_lists"] with
  | [nodes, lists] =>
    some ⟨(← nodes.list? Node.ofJson?).toArray, (← lists.list? NodeId.ofJson?).toArray⟩
  | _ => none

end QueryPipeline
