import QueryPipeline.Expr.Term

/-!
# Definite assignment

An expression can assign a variable: a test assigns the one it binds when it succeeds, an assignment always.
`Term.assigned` says after which results of an expression a variable has surely been assigned, taking into
account that a connective may leave out its right operand.
-/

namespace QueryPipeline

/-- After which results of an expression a variable has surely been assigned. -/
structure Assigned where
  whenTrue : Bool
  whenFalse : Bool
deriving DecidableEq, Inhabited, Repr

namespace Assigned

/-- The same after every result. -/
def uniformly (b : Bool) : Assigned := ⟨b, b⟩

/-- Whether the variable is assigned after every result. -/
def always (a : Assigned) : Bool := a.whenTrue && a.whenFalse

/-- The operand's answers with their roles exchanged. -/
def negate (a : Assigned) : Assigned := ⟨a.whenFalse, a.whenTrue⟩

/-- `l && r`: true means that both are, false that `l` is, or that `l` is true and `r` is not. -/
def and (l r : Assigned) : Assigned :=
  ⟨l.whenTrue || r.whenTrue, l.whenFalse && (l.whenTrue || r.whenFalse)⟩

/-- `l || r`: false means that both are, true that `l` is, or that `l` is false and `r` is true. -/
def or (l r : Assigned) : Assigned :=
  ⟨l.whenTrue && (l.whenFalse || r.whenTrue), l.whenFalse || r.whenFalse⟩

end Assigned

mutual

/-- After which results of the term the variable has surely been assigned. -/
def Term.assigned (x : Symbol) : Term → Assigned
  | hole | literal _ _ | ident _ _ => .uniformly false
  | connective _ .and l r => (assigned x l).and (assigned x r)
  | connective _ .or l r => (assigned x l).or (assigned x r)
  | operator _ _ l r => .uniformly ((assigned x l).always || (assigned x r).always)
  | not _ e => (assigned x e).negate
  | neg _ e | part _ e _ => .uniformly (assigned x e).always
  | test _ _ e y =>
    let base := (assigned x e).always
    ⟨base || (y.isPresent && y == x), base⟩
  | assign _ y e => .uniformly ((assigned x e).always || y == x)
  | row _ _ items => .uniformly (Term.someAssigns x items)

/-- Whether one of the terms surely assigns the variable. -/
def Term.someAssigns (x : Symbol) : List Term → Bool
  | [] => false
  | t :: ts => (assigned x t).always || someAssigns x ts

end

/-- After which result of its expression a pattern variable has surely been assigned. -/
inductive Condition where
  | whenTrue
  | whenFalse
  /-- After neither. -/
  | indeterminate
deriving DecidableEq, Inhabited, Repr

/-- After which result of the term the variable has surely been assigned; a variable that is assigned after
both counts as assigned when it is true. -/
def Term.condition (t : Term) (x : Symbol) : Condition :=
  if (t.assigned x).whenTrue then .whenTrue
  else if (t.assigned x).whenFalse then .whenFalse
  else .indeterminate

end QueryPipeline
