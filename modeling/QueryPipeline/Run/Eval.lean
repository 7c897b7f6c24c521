import QueryPipeline.Expr.Term
import QueryPipeline.Run.Operation
import QueryPipeline.Run.Store

/-!
# Evaluation of expressions

An expression is evaluated with the variables of its stage at hand, and with the variables of the code around
the query, which are the captures.  A name that a test of the stage binds never means a capture.

What the forms of expressions compute does not depend on how variables are kept: `Term.evalVia` takes the ways to
reach them as an argument, and `Term.eval` is the case of a stage.
-/

namespace QueryPipeline

/-- What an expression reads and changes. -/
structure Memory where
  locals : Store
  captures : Store
deriving DecidableEq, Inhabited, Repr

/-- What an expression is evaluated for: the spellings of symbols, and the names that tests of the stage bind. -/
structure Setting where
  names : SymbolTable
  declared : List Symbol
deriving DecidableEq, Inhabited, Repr

/-- A computation that reads and changes the memory. -/
abbrev Eval := Computation Memory

/-! ### Values at hand -/

/-- The complaint that a variable has no value. -/
def Setting.unbound (g : Setting) (x : Symbol) : Fault := .unbound (g.names.spelling x)

/-- The value of a variable: a variable of the stage, or else a capture, unless a test of the stage binds the
name. -/
def Memory.find? (m : Memory) (g : Setting) (x : Symbol) : Option Value :=
  (m.locals.get? x).or (if g.declared.contains x then none else m.captures.get? x)

/-- The value of a variable. -/
def Eval.read (g : Setting) (x : Symbol) : Eval Value := do
  Computation.ofOption (g.unbound x) ((← get).find? g x)

/-- Gives a variable of the stage a value. -/
def Eval.setLocal (x : Symbol) (v : Value) : Eval Unit :=
  modify fun m => { m with locals := m.locals.insert x v }

/-- Assigns a variable: one of the stage if it has a value there, or else a capture, unless a test of the stage
binds the name. -/
def Eval.store (g : Setting) (x : Symbol) (v : Value) : Eval Unit := do
  let m ← get
  if m.locals.contains x then set { m with locals := m.locals.insert x v }
  else if g.declared.contains x then Computation.fail (g.unbound x)
  else set { m with captures := m.captures.insert x v }

/-! ### Ways to variables -/

/-- How an expression reaches its variables, where `σ` is what they are kept in. -/
structure Access (σ : Type) where
  read : Symbol → Computation σ Value
  assign : Symbol → Value → Computation σ Unit
  /-- Gives a value to the variable that a test binds. -/
  bind : Symbol → Value → Computation σ Unit

/-- The variables of a stage and the captures. -/
def Setting.access (g : Setting) : Access Memory := ⟨Eval.read g, Eval.store g, Eval.setLocal⟩

/-! ### What a node makes of its operands -/

variable {σ : Type}

/-- Makes a test of a value.  A type test binds its variable to the value if it succeeds and names one; an
integer parse binds its variable to the integer, or to zero if there is none. -/
def Test.run (t : Test) (bind : Symbol → Value → Computation σ Unit) (x : Symbol) (v : Value) :
    Computation σ Value :=
  match t with
  | .hasType ty => do
    let matched := ty.accepts v
    if matched && x.isPresent then bind x v
    return .bool matched
  | .parsesInt => do
    let parsed ← Computation.ofExcept v.parseInt
    bind x (.int (parsed.getD 0))
    return .bool parsed.isSome

namespace Eval

/-- The value of a connective.  The right operand is evaluated only if the left one leaves the answer open. -/
@[inline]
def connective (c : Connective) (left right : Computation σ Value) : Computation σ Value := do
  let a ← left
  let a ← Computation.ofExcept a.asBool
  if c.isOpen a then
    let b ← right
    let b ← Computation.ofExcept b.asBool
    return .bool b
  else
    return .bool a

/-- The value of an operator. -/
@[inline]
def operator (op : Operator) (left right : Computation σ Value) : Computation σ Value := do
  let a ← left
  let b ← right
  Computation.ofExcept (op.apply a b)

/-- The negation of a truth value. -/
@[inline]
def not (operand : Computation σ Value) : Computation σ Value := do
  let b ← operand
  let b ← Computation.ofExcept b.asBool
  return .bool !b

/-- An integer with the opposite sign. -/
@[inline]
def neg (operand : Computation σ Value) : Computation σ Value := do
  let n ← operand
  let n ← Computation.ofExcept n.asInt
  Computation.ofExcept (Value.ofInt (-n))

/-- The outcome of a test. -/
@[inline]
def test (a : Access σ) (t : Test) (operand : Computation σ Value) (x : Symbol) : Computation σ Value := do
  let v ← operand
  t.run a.bind x v

/-- The value that is assigned. -/
@[inline]
def assign (a : Access σ) (x : Symbol) (value : Computation σ Value) : Computation σ Value := do
  let v ← value
  a.assign x v
  return v

/-- The composite of some values. -/
@[inline]
def row (kind : Composite) (items : Computation σ (List Value)) : Computation σ Value := do
  let vs ← items
  return kind.value vs

/-- The part of a composite. -/
@[inline]
def part (receiver : Computation σ Value) (position : Nat) : Computation σ Value := do
  let v ← receiver
  Computation.ofExcept (v.part position)

/-- The values of expressions, evaluated from left to right, where `eval` is how one is evaluated. -/
def each {ε : Type} (eval : ε → Computation σ Value) : List ε → Computation σ (List Value)
  | [] => return []
  | e :: es => do
    let v ← eval e
    let vs ← each eval es
    return v :: vs

theorem each_map {ε δ : Type} (f : ε → δ) (eval : δ → Computation σ Value) (es : List ε) :
    each eval (es.map f) = each (fun e => eval (f e)) es := by
  induction es with
  | nil => rfl
  | cons e es ih => simp [each, ih]

end Eval

/-! ### Terms -/

mutual

/-- The value of an expression, given the ways to its variables. -/
def Term.evalVia (names : SymbolTable) (a : Access σ) : Term → Computation σ Value
  | hole => throw .dangling
  | literal _ l => return l.value names
  | ident _ x => a.read x
  | connective _ c l r => Eval.connective c (evalVia names a l) (evalVia names a r)
  | operator _ op l r => Eval.operator op (evalVia names a l) (evalVia names a r)
  | not _ e => Eval.not (evalVia names a e)
  | neg _ e => Eval.neg (evalVia names a e)
  | test _ t e x => Eval.test a t (evalVia names a e) x
  | assign _ x e => Eval.assign a x (evalVia names a e)
  | row _ kind items => Eval.row kind (evalAllVia names a items)
  | part _ e k => Eval.part (evalVia names a e) k

/-- The values of expressions, evaluated from left to right. -/
def Term.evalAllVia (names : SymbolTable) (a : Access σ) : List Term → Computation σ (List Value)
  | [] => return []
  | t :: ts => do
    let v ← evalVia names a t
    let vs ← evalAllVia names a ts
    return v :: vs

end

theorem Term.evalAllVia_eq (names : SymbolTable) (a : Access σ) (ts : List Term) :
    evalAllVia names a ts = Eval.each (evalVia names a) ts := by
  induction ts with
  | nil => simp [evalAllVia, Eval.each]
  | cons t ts ih => simp [evalAllVia, Eval.each, ih]

/-- The value of an expression of a stage. -/
def Term.eval (g : Setting) (t : Term) : Eval Value := t.evalVia g.names g.access

end QueryPipeline
