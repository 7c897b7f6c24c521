import QueryPipeline.Carrier.Basic
import QueryPipeline.Expr.Pool

/-!
# Pipelines

A pipeline is a root sequence and a row of stages, each of which maps, filters or flattens what comes from the
one before.  A stage refers to the expressions it evaluates by their ids in the pipeline's pool.
-/

namespace QueryPipeline

/-- What a stage does to a sequence. -/
inductive Combinator where
  | map
  | filter
  | flatMap
deriving DecidableEq, Inhabited, Repr

/-- The name of the combinator in a library of sequences. -/
def Combinator.callName : Combinator → String
  | map => "Select"
  | filter => "Where"
  | flatMap => "SelectMany"

/-- What a stage computes, where `ε` is how it refers to expressions. -/
inductive Body (ε : Type) where
  /-- Adds variables, each with the value of an expression. -/
  | extend (bindings : List (BindingId × ε))
  /-- Evaluates a composite once and takes parts out of it. -/
  | destructure (source : ε) (parts : List (BindingId × Nat))
  /-- One element for each member of a collection. -/
  | generate (collection : ε) (element : BindingId)
  /-- Keeps an element if a condition holds. -/
  | predicate (condition : ε)
  /-- The outcome of a condition: a carrier with the variables that it bound, or a mark of failure. -/
  | guard (condition : ε)
  /-- Keeps the outcomes that are successes. -/
  | rejectAbsent
  /-- The carrier of an outcome that is a success. -/
  | unwrap
  /-- The result for an element. -/
  | project (result : ε)
deriving DecidableEq, Inhabited, Repr

namespace Body

/-- The expression that the stage evaluates, the first if there are several. -/
def expr? {ε : Type} : Body ε → Option ε
  | extend bindings => bindings.head?.map Prod.snd
  | destructure e _ | generate e _ | predicate e | guard e | project e => some e
  | rejectAbsent | unwrap => none

/-- All expressions that the stage evaluates, in order. -/
def exprs {ε : Type} : Body ε → List ε
  | extend bindings => bindings.map Prod.snd
  | destructure e _ | generate e _ | predicate e | guard e | project e => [e]
  | rejectAbsent | unwrap => []

/-- The same computation with another way to refer to expressions. -/
def map {ε δ : Type} (g : ε → δ) : Body ε → Body δ
  | extend bindings => extend (bindings.map fun p => (p.1, g p.2))
  | destructure e parts => destructure (g e) parts
  | generate e b => generate (g e) b
  | predicate e => predicate (g e)
  | guard e => guard (g e)
  | rejectAbsent => rejectAbsent
  | unwrap => unwrap
  | project e => project (g e)

end Body

/-- A stage of a pipeline, where `ε` is how it refers to expressions. -/
structure Stage (ε : Type) where
  kind : Combinator
  input : Shape
  output : Shape
  body : Body ε
  /-- The clause that the stage comes from. -/
  clause : Nat
deriving DecidableEq, Inhabited, Repr

/-- A root sequence and the stages that its elements go through. -/
structure Pipeline where
  pool : Pool
  source : NodeId
  sourceCarrier : Carrier
  stages : List (Stage NodeId)
deriving DecidableEq, Inhabited, Repr

end QueryPipeline
