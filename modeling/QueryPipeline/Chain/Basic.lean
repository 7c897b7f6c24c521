import QueryPipeline.Chain.Binding
import QueryPipeline.Chain.Grammar

/-!
# Chains

A chain is a query that keeps to the grammar, with every clause's expression as a term and a table of all the
variables that its clauses introduce.  A clause introduces its range variables first, then its pattern
variables, one for each name that a test in its expression binds.
-/

namespace QueryPipeline

/-- A clause of a chain. -/
structure Link where
  kind : ClauseKind
  expr : NodeId
  /-- The expression with its operands in place. -/
  term : Term
  ranges : BindingRange
  patterns : BindingRange
  ty : Ty
  span : Span
deriving Inhabited, Repr

/-- The bindings that the clause introduces, range variables first. -/
def Link.ids (l : Link) : List BindingId := l.ranges.ids ++ l.patterns.ids

/-- A query that keeps to the grammar, and its variables. -/
structure Chain where
  pool : Pool
  links : List Link
  bindings : Array Binding
deriving Inhabited, Repr

namespace Chain

/-- The number of clauses. -/
def size (c : Chain) : Nat := c.links.length

/-- The binding with the given id. -/
def binding? (c : Chain) (b : BindingId) : Option Binding := c.bindings[b.index]?

/-- The ids of all bindings, in order. -/
def allIds (c : Chain) : List BindingId := (List.range c.bindings.size).map BindingId.mk

/-- Whether a clause introduces a pattern variable. -/
def bindsPatterns (c : Chain) : Bool := c.bindings.any Binding.isPattern

end Chain

/-! ### From a query to its chain -/

/-- The range variables of the clause at place `index`. -/
def Clause.rangeVariables (index : Nat) (c : Clause) : List Binding :=
  match c.binder with
  | .none => []
  | .one x => [⟨x, c.ty, .range, index, c.span⟩]
  | .many xs => xs.zipIdx.map fun (x, i) => ⟨x, c.ty.part i, .range, index, c.span⟩

/-- The tests of the term that bind a variable, the first of each name in the order of a walk. -/
def Term.firstTests (t : Term) : List (Symbol × Term) :=
  Symbol.firstOfEach Prod.fst <| t.walk.filterMap fun u => u.bound?.map fun x => (x, u)

/-- The pattern variables that the term binds in the clause at place `index`: one for each name, typed and
placed as the first test in a walk that binds it. -/
def Term.patternVariables (index : Nat) (t : Term) : List Binding :=
  t.firstTests.map fun (x, u) => ⟨x, u.boundTy, .pattern (t.condition x), index, u.span⟩

/-- The clauses from place `index` on, where `count` bindings came before, and the bindings they introduce.  Ids of
bindings are counted without a bound here; ids of 32 bits would stop at the last of them and tell the bindings apart
only as long as there are fewer than `2 ^ 32`. -/
def linksFrom (pool : Pool) : (index count : Nat) → List Clause → Option (List Link × List Binding)
  | _, _, [] => some ([], [])
  | index, count, c :: rest => do
    let term ← pool.term? c.expr
    let ranges := c.rangeVariables index
    let patterns := term.patternVariables index
    let link : Link :=
      { kind := c.kind
        expr := c.expr
        term
        ranges := .ofCount count ranges.length
        patterns := .ofCount (count + ranges.length) patterns.length
        ty := c.ty
        span := c.span }
    let (links, bindings) ← linksFrom pool (index + 1) (count + ranges.length + patterns.length) rest
    some (link :: links, ranges ++ patterns ++ bindings)

/-- The chain of a query that keeps to the grammar and whose expressions have no holes. -/
def Query.chain (q : Query) : Except (Failure Report) Chain :=
  match q.grammarFault? with
  | some fault => .error (.error (.one fault))
  | none =>
    match linksFrom q.pool 0 0 q.clauses with
    | none => .error .dangling
    | some (links, bindings) => .ok ⟨q.pool, links, bindings.toArray⟩

end QueryPipeline
