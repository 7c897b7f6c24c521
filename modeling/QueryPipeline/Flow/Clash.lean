import QueryPipeline.Chain.Basic

/-!
# Names that are bound twice

Tests on the two sides of `||` may bind one name, if they give it one type: then they bind one variable.  Any
other name that is bound twice in one expression clashes.  `Term.declared` collects what an expression binds
together with its clashes, from left to right.
-/

namespace QueryPipeline

/-- A name that a test binds. -/
structure Declaration where
  name : Symbol
  ty : Ty
  span : Span
deriving DecidableEq, Inhabited, Repr

/-- How two declarations of one name clash. -/
inductive ClashKind where
  /-- The two sides of `||` give the name different types. -/
  | types (left right : Ty)
  /-- Both tests are made. -/
  | samePath
deriving DecidableEq, Inhabited, Repr

/-- The clash in words. -/
def ClashKind.message : ClashKind → String
  | types left right => s!"declared as `{left.text}` and `{right.text}` in alternative branches"
  | samePath => "declared more than once on the same path"

/-- A name that clashes, and the later declaration's place. -/
structure Clash where
  name : Symbol
  span : Span
  kind : ClashKind
deriving DecidableEq, Inhabited, Repr

/-- What an expression binds, each name once, and the clashes within it. -/
structure Declared where
  names : List Declaration
  clashes : List Clash
deriving DecidableEq, Inhabited, Repr

namespace Declared

/-- Nothing is bound. -/
def none : Declared := ⟨[], []⟩

/-- One name is bound. -/
def one (d : Declaration) : Declared := ⟨[d], []⟩

/-- The declaration of a name. -/
def find? (a : Declared) (x : Symbol) : Option Declaration := a.names.find? fun d => d.name == x

/-- What two expressions bind that are both evaluated: a name of both clashes. -/
def also (a b : Declared) : Declared where
  names := a.names ++ b.names.filter fun d => (a.find? d.name).isNone
  clashes := a.clashes ++ b.clashes ++
    (b.names.filter fun d => (a.find? d.name).isSome).map fun d => ⟨d.name, d.span, .samePath⟩

/-- What two expressions bind that are alternatives: a name of both clashes only if its types differ. -/
def orElse (a b : Declared) : Declared where
  names := a.names ++ b.names.filter fun d => (a.find? d.name).isNone
  clashes := a.clashes ++ b.clashes ++ b.names.filterMap fun d =>
    match a.find? d.name with
    | some e => if e.ty = d.ty then Option.none else some ⟨d.name, d.span, .types e.ty d.ty⟩
    | Option.none => Option.none

end Declared

mutual

/-- What the term binds, and the clashes within it. -/
def Term.declared : Term → Declared
  | hole | literal _ _ | ident _ _ => .none
  | connective _ .or l r => (declared l).orElse (declared r)
  | connective _ .and l r | operator _ _ l r => (declared l).also (declared r)
  | not _ e | neg _ e | assign _ _ e | part _ e _ => declared e
  | test o t e x =>
    if x.isPresent then (declared e).also (.one ⟨x, t.boundTy, o.span⟩) else declared e
  | row _ _ items => declaredAfter .none items

/-- What has been bound and what the terms bind, and the clashes within it. -/
def Term.declaredAfter (sofar : Declared) : List Term → Declared
  | [] => sofar
  | t :: ts => declaredAfter (sofar.also (declared t)) ts

end

/-- The clashes of the term, the first for each name. -/
def Term.clashes (t : Term) : List Clash := Symbol.firstOfEach Clash.name t.declared.clashes

/-- The names that are ambiguous in the clauses from place `index` on. -/
def ambiguitiesFrom (names : SymbolTable) : Nat → List Link → List Rejection
  | _, [] => []
  | index, l :: rest =>
    (l.term.clashes.map fun c => ⟨index, c.span, .ambiguous (names.spelling c.name) c.kind.message⟩) ++
      ambiguitiesFrom names (index + 1) rest

/-- The ambiguous names of the chain, ordered by clause, span and name. -/
def Chain.ambiguities (c : Chain) (names : SymbolTable) : List Rejection :=
  Rejection.sort (ambiguitiesFrom names 0 c.links)

end QueryPipeline
