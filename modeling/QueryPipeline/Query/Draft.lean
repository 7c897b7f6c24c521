import QueryPipeline.Query.Clause

/-!
# Drafting a query

A draft grows into a query clause by clause.  Expressions are given as they are written, with names and strings
spelled out; placing one in the pool enters its spellings in the symbol table.  The operands of an expression
are placed before the expression itself, from left to right.  The node that comes `i`-th gets the span of the
one character at `2 * i`, so all spans differ.
-/

namespace QueryPipeline

/-- An expression as it is written. -/
inductive Written where
  | int (n : Int)
  | bool (b : Bool)
  | str (s : String)
  | null
  | ident (x : String)
  | connective (c : Connective) (left right : Written)
  | operator (op : Operator) (left right : Written)
  | not (operand : Written)
  | neg (operand : Written)
  | test (t : Test) (operand : Written) (x : String)
  | assign (x : String) (value : Written)
  | row (kind : Composite) (items : List Written)
  | part (receiver : Written) (position : Nat)
deriving Inhabited, Repr

/-- The symbols, the expressions and the clauses so far. -/
structure Draft where
  names : SymbolTable
  pool : Pool
  clauses : List Clause
deriving Inhabited, Repr

namespace Draft

/-- The draft without clauses. -/
def start (names : SymbolTable) : Draft := ⟨names, .empty, []⟩

/-- The query as drafted. -/
def query (d : Draft) : Query := ⟨d.pool, d.clauses⟩

/-- The span of the node that comes `i`-th. -/
def spanAt (i : Nat) : Span := ⟨2 * i, 2 * i + 1⟩

/-! ### Expressions -/

/-- Adds a node at a place in the text. -/
def addAt (form : Form) (span : Option Span) : StateM Draft NodeId := fun d =>
  let (i, pool) := d.pool.add ⟨form, span.getD (spanAt d.pool.size)⟩
  (i, { d with pool })

/-- Adds a node. -/
def add (form : Form) : StateM Draft NodeId := addAt form none

/-- The symbol of a spelling. -/
def intern (s : String) : StateM Draft Symbol := fun d =>
  let (x, names) := d.names.intern s
  (x, { d with names })

/-- The symbols of spellings. -/
def internAll (ss : List String) : StateM Draft (List Symbol) := fun d =>
  let (xs, names) := d.names.internAll ss
  (xs, { d with names })

/-- Adds a list to the pool's table; none if it is too long. -/
def addList (is : List NodeId) : OptionT (StateM Draft) Slice := fun d =>
  match d.pool.addList? is with
  | some (s, pool) => (some s, { d with pool })
  | none => (none, d)

/-- Adds a list of `n` copies of one id to the pool's table; none if it is too long. -/
def addCopies (i : NodeId) (n : Nat) : OptionT (StateM Draft) Slice :=
  if n ≤ maxListLength then addList (List.replicate n i) else failure

mutual

/-- Places an expression in the pool; none if a row in it is too long. -/
def place : Written → OptionT (StateM Draft) NodeId
  | .int n => add (.literal (.int n))
  | .bool b => add (.literal (.bool b))
  | .str s => do add (.literal (.str (← intern s)))
  | .null => add (.literal .null)
  | .ident x => do add (.ident (← intern x))
  | .connective c l r => do
    let i ← place l
    let j ← place r
    add (.connective c i j)
  | .operator op l r => do
    let i ← place l
    let j ← place r
    add (.operator op i j)
  | .not e => do add (.not (← place e))
  | .neg e => do add (.neg (← place e))
  | .test t e x => do
    let i ← place e
    add (.test t i (← intern x))
  | .assign x e => do
    let i ← place e
    add (.assign (← intern x) i)
  | .row kind items => do
    let is ← placeAll items
    add (.row kind (← addList is))
  | .part e k => do add (.part (← place e) k)

/-- Places expressions in the pool, from left to right. -/
def placeAll : List Written → OptionT (StateM Draft) (List NodeId)
  | [] => return []
  | e :: es => do
    let i ← place e
    let is ← placeAll es
    return i :: is

end

/-! ### Clauses -/

/-- Adds a clause as it is. -/
def addClause (c : Clause) : StateM Draft Unit := modify fun d => { d with clauses := d.clauses ++ [c] }

/-- Adds a clause that stands where its expression stands. -/
def addClauseFor (kind : ClauseKind) (expr : NodeId) (binder : Binder) (ty : Ty) : StateM Draft Unit := do
  let span := (((← get).pool.get? expr).map Node.span).getD .nowhere
  addClause ⟨kind, expr, binder, ty, span⟩

/-- Adds a clause with its expression as it is written. -/
def clause (kind : ClauseKind) (e : Written) (binder : StateM Draft Binder) (ty : Ty) :
    OptionT (StateM Draft) Unit := do
  let i ← place e
  addClauseFor kind i (← binder) ty

/-- Adds the source. -/
def source (x : String) (e : Written) (ty : Ty) : OptionT (StateM Draft) Unit :=
  clause .source e (Binder.one <$> intern x) ty

/-- Adds a generator. -/
def generator (x : String) (e : Written) (ty : Ty) : OptionT (StateM Draft) Unit :=
  clause .generator e (Binder.one <$> intern x) ty

/-- Adds a filter. -/
def filter (e : Written) : OptionT (StateM Draft) Unit := clause .filter e (return .none) .bool

/-- Adds a definition. -/
def define (x : String) (e : Written) (ty : Ty) : OptionT (StateM Draft) Unit :=
  clause .define e (Binder.one <$> intern x) ty

/-- Adds a definition of a row of names. -/
def unpack (xs : List String) (e : Written) (ty : Ty) : OptionT (StateM Draft) Unit :=
  clause .unpack e (Binder.many <$> internAll xs) ty

/-- Adds the selection. -/
def select (e : Written) (ty : Ty) : OptionT (StateM Draft) Unit := clause .select e (return .none) ty

end Draft

end QueryPipeline
