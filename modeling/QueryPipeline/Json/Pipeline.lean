import QueryPipeline.Json.Expr
import QueryPipeline.Pipeline.Basic

/-!
# Pipelines as documents

How carriers, stages and pipelines are written as documents and read back.
-/

namespace QueryPipeline

/-! ### Carriers and shapes -/

/-- The id as a document. -/
def BindingId.toJson (b : BindingId) : Json := .nat b.index

/-- The id that a document writes. -/
def BindingId.ofJson? (j : Json) : Option BindingId := j.id?.map BindingId.mk

/-- The field as a document. -/
def Field.toJson (f : Field) : Json :=
  .obj [("binding", f.binding.toJson), ("name", f.name.toJson), ("ty", f.ty.toJson)]

/-- The field that a document writes. -/
def Field.ofJson? (j : Json) : Option Field := do
  match ← j.fields? ["binding", "name", "ty"] with
  | [b, x, ty] => some ⟨← BindingId.ofJson? b, ← Symbol.ofJson? x, ← Ty.ofJson? ty⟩
  | _ => none

/-- The carrier as a document. -/
def Carrier.toJson (c : Carrier) : Json := .obj [("id", .nat c.id), ("fields", .list Field.toJson c.fields)]

/-- The carrier that a document writes. -/
def Carrier.ofJson? (j : Json) : Option Carrier := do
  match ← j.fields? ["id", "fields"] with
  | [id, fields] => some ⟨← id.id?, ← fields.list? Field.ofJson?⟩
  | _ => none

/-- The name of an encoding. -/
def Encoding.tag : Encoding → String
  | elided => "Elided"
  | tagged => "Tagged"

/-- The encoding that has the name. -/
def Encoding.ofTag? (s : String) : Option Encoding := [elided, tagged].find? fun e => e.tag == s

/-- The shape as a document. -/
def Shape.toJson : Shape → Json
  | carrier c => .variant "Carrier" c.toJson
  | outcome c encoding => .variant "Outcome" (.obj [("payload", c.toJson), ("repr", .str encoding.tag)])
  | projection ty => .variant "Projection" ty.toJson

/-- The shape that a document writes. -/
def Shape.ofJson? (j : Json) : Option Shape :=
  match j.variant? with
  | some ("Carrier", some content) => (Carrier.ofJson? content).map carrier
  | some ("Outcome", some content) => do
    match ← content.labelled? ["payload", "repr"] with
    | [c, encoding] => some (outcome (← Carrier.ofJson? c) (← encoding.bare?.bind Encoding.ofTag?))
    | _ => none
  | some ("Projection", some content) => (Ty.ofJson? content).map projection
  | _ => none

/-! ### Stages -/

/-- The name of a combinator. -/
def Combinator.tag : Combinator → String
  | map => "Map"
  | filter => "Filter"
  | flatMap => "FlatMap"

/-- The combinator that has the name. -/
def Combinator.ofTag? (s : String) : Option Combinator := [map, filter, flatMap].find? fun c => c.tag == s

namespace Body

/-- What a stage computes, as a document. -/
def toJson : Body NodeId → Json
  | extend bindings =>
    .variant "Extend" (.obj [("bindings", .list (fun p => .pair p.1.toJson p.2.toJson) bindings)])
  | destructure e parts =>
    .variant "Destructure"
      (.obj [("source", e.toJson), ("parts", .list (fun p => .pair p.1.toJson (.nat p.2)) parts)])
  | generate e b => .variant "Generate" (.obj [("collection", e.toJson), ("element", b.toJson)])
  | predicate e => .variant "Predicate" (.obj [("predicate", e.toJson)])
  | guard e => .variant "Guard" (.obj [("predicate", e.toJson)])
  | rejectAbsent => .str "RejectAbsent"
  | unwrap => .str "Unwrap"
  | project e => .variant "Project" (.obj [("result", e.toJson)])

/-- The binding and the expression that a document writes. -/
def extension? (j : Json) : Option (BindingId × NodeId) := do
  let (b, e) ← j.pair?
  some (← BindingId.ofJson? b, ← NodeId.ofJson? e)

/-- The binding and the position that a document writes. -/
def position? (j : Json) : Option (BindingId × Nat) := do
  let (b, k) ← j.pair?
  some (← BindingId.ofJson? b, ← k.id?)

/-- The expression that is the only field of a document. -/
def soleExpr? (key : String) (j : Json) : Option NodeId := do
  match ← j.labelled? [key] with
  | [e] => NodeId.ofJson? e
  | _ => none

/-- What a stage computes, from the content of a variant. -/
def ofVariant? (name : String) (content : Json) : Option (Body NodeId) :=
  match name with
  | "Extend" => do
    match ← content.labelled? ["bindings"] with
    | [bindings] => some (extend (← bindings.list? extension?))
    | _ => none
  | "Destructure" => do
    match ← content.labelled? ["source", "parts"] with
    | [e, parts] => some (destructure (← NodeId.ofJson? e) (← parts.list? position?))
    | _ => none
  | "Generate" => do
    match ← content.labelled? ["collection", "element"] with
    | [e, b] => some (generate (← NodeId.ofJson? e) (← BindingId.ofJson? b))
    | _ => none
  | "Predicate" => (soleExpr? "predicate" content).map predicate
  | "Guard" => (soleExpr? "predicate" content).map guard
  | "Project" => (soleExpr? "result" content).map project
  | _ => none

/-- What a stage computes, from a document. -/
def ofJson? (j : Json) : Option (Body NodeId) :=
  match j.bare? with
  | some "RejectAbsent" => some rejectAbsent
  | some "Unwrap" => some unwrap
  | _ =>
    match j.variant? with
    | some (name, some content) => ofVariant? name content
    | _ => none

end Body

/-- The stage as a document. -/
def Stage.toJson (s : Stage NodeId) : Json :=
  .obj [("kind", .str s.kind.tag), ("input", s.input.toJson), ("output", s.output.toJson),
    ("body", s.body.toJson), ("clause", .nat s.clause)]

/-- The stage that a document writes. -/
def Stage.ofJson? (j : Json) : Option (Stage NodeId) := do
  match ← j.fields? ["kind", "input", "output", "body", "clause"] with
  | [kind, input, output, body, clause] =>
    some ⟨← kind.bare?.bind Combinator.ofTag?, ← Shape.ofJson? input, ← Shape.ofJson? output,
      ← Body.ofJson? body, ← clause.count?⟩
  | _ => none

/-! ### Pipelines -/

/-- The pipeline as a document. -/
def Pipeline.toJson (p : Pipeline) : Json :=
  .obj [("arena", p.pool.toJson), ("source", p.source.toJson), ("source_shape", p.sourceCarrier.toJson),
    ("stages", .list Stage.toJson p.stages)]

/-- The pipeline that a document writes. -/
def Pipeline.ofJson? (j : Json) : Option Pipeline := do
  match ← j.fields? ["arena", "source", "source_shape", "stages"] with
  | [pool, source, carrier, stages] =>
    some ⟨← Pool.ofJson? pool, ← NodeId.ofJson? source, ← Carrier.ofJson? carrier,
      ← stages.list? Stage.ofJson?⟩
  | _ => none

end QueryPipeline
