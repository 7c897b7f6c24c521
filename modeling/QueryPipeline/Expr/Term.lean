import QueryPipeline.Expr.Form

/-!
# Expressions as trees

A term is an expression with its operands in place.  Each node keeps the id it has in its pool, so a node that
is shared there occurs in the term several times with one id.  Where the pool has no expression to put, the
term has a hole.

`Term.walk` lists the nodes of a term, each before its operands, and `Term.settled` lists them in the order in
which they get their values, each after its operands.  Both work off a list of what is still to do.
-/

namespace QueryPipeline

/-- Where a node of a term comes from. -/
structure Origin where
  id : NodeId
  span : Span
deriving DecidableEq, Inhabited, Repr

/-- An expression with its operands in place. -/
inductive Term where
  /-- There is no expression here. -/
  | hole
  | literal (o : Origin) (l : Literal)
  | ident (o : Origin) (x : Symbol)
  | connective (o : Origin) (c : Connective) (left right : Term)
  | operator (o : Origin) (op : Operator) (left right : Term)
  | not (o : Origin) (operand : Term)
  | neg (o : Origin) (operand : Term)
  | test (o : Origin) (t : Test) (operand : Term) (x : Symbol)
  | assign (o : Origin) (x : Symbol) (value : Term)
  | row (o : Origin) (kind : Composite) (items : List Term)
  | part (o : Origin) (receiver : Term) (position : Nat)
deriving Inhabited, Repr

namespace Term

/-- Where the root of the term comes from; a hole comes from nowhere. -/
def origin : Term → Origin
  | hole => ⟨.absent, .nowhere⟩
  | literal o _ | ident o _ | connective o _ _ _ | operator o _ _ _ | not o _ | neg o _ | test o _ _ _
  | assign o _ _ | row o _ _ | part o _ _ => o

/-- The id of the root. -/
def id (t : Term) : NodeId := t.origin.id

/-- The span of the root. -/
def span (t : Term) : Span := t.origin.span

/-- The operands of the root, in the order in which they are evaluated. -/
def operands : Term → List Term
  | hole | literal _ _ | ident _ _ => []
  | connective _ _ l r | operator _ _ l r => [l, r]
  | not _ e | neg _ e | test _ _ e _ | assign _ _ e | part _ e _ => [e]
  | row _ _ items => items

/-- The variable that the root binds, if it is a test that names one. -/
def bound? : Term → Option Symbol
  | test _ _ _ x => if x.isPresent then some x else none
  | _ => none

/-- The static type of the variable that the root binds. -/
def boundTy : Term → Ty
  | test _ t _ _ => t.boundTy
  | _ => .unknown

/-! ### Size and holes -/

mutual

/-- The number of nodes of the term. -/
def size : Term → Nat
  | hole | literal _ _ | ident _ _ => 1
  | connective _ _ l r | operator _ _ l r => 1 + (size l + size r)
  | not _ e | neg _ e | test _ _ e _ | assign _ _ e | part _ e _ => 1 + size e
  | row _ _ items => 1 + sizes items

/-- The number of nodes of all the terms. -/
def sizes : List Term → Nat
  | [] => 0
  | t :: ts => size t + sizes ts

end

mutual

/-- Whether the term has no holes. -/
def isComplete : Term → Bool
  | hole => false
  | literal _ _ | ident _ _ => true
  | connective _ _ l r | operator _ _ l r => isComplete l && isComplete r
  | not _ e | neg _ e | test _ _ e _ | assign _ _ e | part _ e _ => isComplete e
  | row _ _ items => areComplete items

/-- Whether none of the terms has a hole. -/
def areComplete : List Term → Bool
  | [] => true
  | t :: ts => isComplete t && areComplete ts

end

theorem areComplete_iff (ts : List Term) : areComplete ts = true ↔ ∀ t ∈ ts, t.isComplete = true := by
  induction ts with
  | nil => simp [areComplete]
  | cons t ts ih => simp [areComplete, ih]

theorem sizes_append (ts us : List Term) : sizes (ts ++ us) = sizes ts + sizes us := by
  induction ts with
  | nil => simp [sizes]
  | cons t ts ih => simp [sizes, ih, Nat.add_assoc]

theorem size_eq (t : Term) : t.size = 1 + sizes t.operands := by
  cases t <;> simp [size, operands, sizes]

/-! ### The order of a walk -/

mutual

/-- The nodes of the term, each before its operands. -/
def preorder : Term → List Term
  | t@hole | t@(literal _ _) | t@(ident _ _) => [t]
  | t@(connective _ _ l r) | t@(operator _ _ l r) => t :: (preorder l ++ preorder r)
  | t@(not _ e) | t@(neg _ e) | t@(test _ _ e _) | t@(assign _ _ e) | t@(part _ e _) => t :: preorder e
  | t@(row _ _ items) => t :: preorders items

/-- The nodes of all the terms, each before its operands. -/
def preorders : List Term → List Term
  | [] => []
  | t :: ts => preorder t ++ preorders ts

end

/-- The nodes of the terms that are still to be walked, with room for `n` of them. -/
def walkPending : Nat → List Term → List Term
  | 0, _ => []
  | _ + 1, [] => []
  | n + 1, t :: pending => t :: walkPending n (t.operands ++ pending)

/-- The nodes of the term, each before its operands, from left to right. -/
def walk (t : Term) : List Term := walkPending t.size [t]

theorem preorders_append (ts us : List Term) : preorders (ts ++ us) = preorders ts ++ preorders us := by
  induction ts with
  | nil => simp [preorders]
  | cons t ts ih => simp [preorders, ih]

theorem preorder_eq (t : Term) : t.preorder = t :: preorders t.operands := by
  cases t <;> simp [preorder, operands, preorders]

theorem walkPending_eq (n : Nat) (pending : List Term) (h : sizes pending ≤ n) :
    walkPending n pending = preorders pending := by
  induction n generalizing pending with
  | zero =>
    cases pending with
    | nil => simp [walkPending, preorders]
    | cons t ts => rw [sizes, size_eq] at h; omega
  | succ n ih =>
    cases pending with
    | nil => simp [walkPending, preorders]
    | cons t ts =>
      rw [sizes, size_eq] at h
      rw [walkPending, ih _ (by rw [sizes_append]; omega), preorders_append, preorders, preorder_eq]
      rfl

/-- Working off the list of pending terms visits every node, in the order of the recursion. -/
theorem walk_eq (t : Term) : t.walk = t.preorder := by
  simp [walk, walkPending_eq _ _ (show sizes [t] ≤ t.size by simp [sizes]), preorders]

/-! ### The order of evaluation -/

mutual

/-- The nodes of the term, each after its operands. -/
def postorder : Term → List Term
  | t@hole | t@(literal _ _) | t@(ident _ _) => [t]
  | t@(connective _ _ l r) | t@(operator _ _ l r) => postorder l ++ postorder r ++ [t]
  | t@(not _ e) | t@(neg _ e) | t@(test _ _ e _) | t@(assign _ _ e) | t@(part _ e _) => postorder e ++ [t]
  | t@(row _ _ items) => postorders items ++ [t]

/-- The nodes of all the terms, each after its operands. -/
def postorders : List Term → List Term
  | [] => []
  | t :: ts => postorder t ++ postorders ts

end

/-- What is to be done with a term: look into it, or note that it has its value. -/
inductive Task where
  | enter (t : Term)
  | leave (t : Term)

/-- The number of steps that the tasks take. -/
def Task.costs : List Task → Nat
  | [] => 0
  | .enter t :: rest => 2 * t.size + costs rest
  | .leave _ :: rest => 1 + costs rest

/-- The terms that the tasks settle, with room for `n` steps. -/
def settlePending : Nat → List Task → List Term
  | 0, _ => []
  | _ + 1, [] => []
  | n + 1, .leave t :: pending => t :: settlePending n pending
  | n + 1, .enter t :: pending => settlePending n (t.operands.map .enter ++ .leave t :: pending)

/-- The nodes of the term in the order in which they get their values, each after its operands. -/
def settled (t : Term) : List Term := settlePending (2 * t.size) [.enter t]

/-- What the tasks settle, by recursion. -/
private def Task.outcome : List Task → List Term
  | [] => []
  | .enter t :: rest => t.postorder ++ outcome rest
  | .leave t :: rest => t :: outcome rest

private theorem Task.costs_enter_append (ts : List Term) (rest : List Task) :
    costs (ts.map .enter ++ rest) = 2 * sizes ts + costs rest := by
  induction ts with
  | nil => simp [sizes]
  | cons t ts ih => simp [costs, sizes, ih]; omega

private theorem Task.outcome_enter_append (ts : List Term) (rest : List Task) :
    outcome (ts.map .enter ++ rest) = postorders ts ++ outcome rest := by
  induction ts with
  | nil => simp [postorders]
  | cons t ts ih => simp [outcome, postorders, ih]

theorem postorder_eq (t : Term) : t.postorder = postorders t.operands ++ [t] := by
  cases t <;> simp [postorder, operands, postorders]

private theorem settlePending_eq (n : Nat) (pending : List Task) (h : Task.costs pending ≤ n) :
    settlePending n pending = Task.outcome pending := by
  induction n generalizing pending with
  | zero =>
    match pending with
    | [] => simp [settlePending, Task.outcome]
    | .enter t :: rest => rw [Task.costs, size_eq] at h; omega
    | .leave t :: rest => rw [Task.costs] at h; omega
  | succ n ih =>
    match pending with
    | [] => simp [settlePending, Task.outcome]
    | .enter t :: rest =>
      rw [Task.costs, size_eq] at h
      rw [settlePending, ih _ (by rw [Task.costs_enter_append, Task.costs]; omega), Task.outcome_enter_append,
        Task.outcome, Task.outcome, postorder_eq]
      simp
    | .leave t :: rest =>
      rw [Task.costs] at h
      rw [settlePending, ih _ (by omega), Task.outcome]

/-- Working off the list of tasks settles every node, in the order of the recursion. -/
theorem settled_eq (t : Term) : t.settled = t.postorder := by
  have h : Task.costs [.enter t] ≤ 2 * t.size := by simp [Task.costs]
  simp [settled, settlePending_eq _ _ h, Task.outcome]

end Term

end QueryPipeline
