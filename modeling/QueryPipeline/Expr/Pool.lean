import QueryPipeline.Bounds
import QueryPipeline.Expr.Term

/-!
# Pools of expressions

A pool holds expression nodes side by side; a node names its operands by their ids, and the members of a row by
a slice of the pool's table of lists.  Nodes may be shared, and ids may lead outside the pool.

`Pool.unfold` turns what an id stands for into a term.  A node whose id or slice leads outside the pool becomes
a hole, and so does whatever lies deeper than the pool has nodes, which happens only if an expression is part of
itself.
-/

namespace QueryPipeline

/-- Expression nodes and the lists that rows refer to. -/
structure Pool where
  nodes : Array Node
  lists : Array NodeId
deriving DecidableEq, Inhabited, Repr

namespace Pool

/-- The pool without expressions. -/
def empty : Pool := ⟨#[], #[]⟩

/-- The number of nodes. -/
def size (p : Pool) : Nat := p.nodes.size

/-- The node with the given id. -/
def get? (p : Pool) (i : NodeId) : Option Node := p.nodes[i.index]?

/-- The ids in a slice of the table of lists, if the slice lies within it. -/
def slice? (p : Pool) (s : Slice) : Option (List NodeId) :=
  if s.start + s.len ≤ p.lists.size then some (p.lists.extract s.start (s.start + s.len)).toList else none

/-! ### Growing a pool -/

/-- Adds a node at the end. -/
def add (p : Pool) (n : Node) : NodeId × Pool := (⟨p.size⟩, ⟨p.nodes.push n, p.lists⟩)

/-- Adds a list at the end of the table, unless it is too long. -/
def addList? (p : Pool) (is : List NodeId) : Option (Slice × Pool) :=
  if is.length ≤ maxListLength then
    some (⟨p.lists.size, is.length⟩, ⟨p.nodes, p.lists ++ is.toArray⟩)
  else
    none

/-! ### Operands and terms -/

/-- The operands that a form names, in the order in which they are evaluated. -/
def operandsOf? (p : Pool) : Form → Option (List NodeId)
  | .literal _ | .ident _ => some []
  | .connective _ l r | .operator _ l r => some [l, r]
  | .not e | .neg e | .test _ e _ | .assign _ e | .part e _ => some [e]
  | .row _ s => p.slice? s

/-- The operands of a node, in the order in which they are evaluated. -/
def operands? (p : Pool) (i : NodeId) : Option (List NodeId) :=
  (p.get? i).bind fun n => p.operandsOf? n.form

/-- What an id stands for, down to the given depth. -/
def unfoldTo (p : Pool) : Nat → NodeId → Term
  | 0, _ => .hole
  | depth + 1, i =>
    match p.get? i with
    | none => .hole
    | some n =>
      match n.form with
      | .literal l => .literal ⟨i, n.span⟩ l
      | .ident x => .ident ⟨i, n.span⟩ x
      | .connective c l r => .connective ⟨i, n.span⟩ c (p.unfoldTo depth l) (p.unfoldTo depth r)
      | .operator op l r => .operator ⟨i, n.span⟩ op (p.unfoldTo depth l) (p.unfoldTo depth r)
      | .not e => .not ⟨i, n.span⟩ (p.unfoldTo depth e)
      | .neg e => .neg ⟨i, n.span⟩ (p.unfoldTo depth e)
      | .test t e x => .test ⟨i, n.span⟩ t (p.unfoldTo depth e) x
      | .assign x e => .assign ⟨i, n.span⟩ x (p.unfoldTo depth e)
      | .row kind s =>
        match p.slice? s with
        | none => .hole
        | some is => .row ⟨i, n.span⟩ kind (is.map (p.unfoldTo depth))
      | .part e k => .part ⟨i, n.span⟩ (p.unfoldTo depth e) k

/-- What has no holes at some depth is the same at every greater depth. -/
theorem unfoldTo_of_isComplete {p : Pool} {depth deeper : Nat} {i : NodeId}
    (h : (p.unfoldTo depth i).isComplete = true) (hd : depth ≤ deeper) :
    p.unfoldTo deeper i = p.unfoldTo depth i := by
  induction depth generalizing deeper i with
  | zero => simp [unfoldTo, Term.isComplete] at h
  | succ depth ih =>
    obtain ⟨deeper, rfl⟩ := Nat.exists_eq_add_of_lt (Nat.lt_of_succ_le hd)
    have hd : depth ≤ depth + deeper := by omega
    rw [unfoldTo] at h ⊢
    rw [unfoldTo]
    cases hn : p.get? i with
    | none => rfl
    | some n =>
      rw [hn] at h
      cases hf : n.form with
      | row kind s =>
        cases hs : p.slice? s with
        | none => simp [hf, hs]
        | some is =>
          simp only [hf, hs, Term.isComplete, Term.areComplete_iff, List.mem_map, forall_exists_index, and_imp,
            forall_apply_eq_imp_iff₂] at h
          simp only [hf, hs, Term.row.injEq, true_and]
          exact List.map_congr_left fun j hj => ih (h j hj) hd
      | literal _ | ident _ => simp [hf]
      | connective _ l r | operator _ l r =>
        simp only [hf, Term.isComplete, Bool.and_eq_true] at h
        simp only [hf, ih h.1 hd, ih h.2 hd]
      | not e | neg e | test _ e _ | assign _ e | part e _ =>
        simp only [hf, Term.isComplete] at h
        simp only [hf, ih h hd]

/-- The expression that an id stands for. -/
def unfold (p : Pool) (i : NodeId) : Term := p.unfoldTo p.size i

/-- The expression that an id stands for, if it has no holes. -/
def term? (p : Pool) (i : NodeId) : Option Term :=
  let t := p.unfold i
  if t.isComplete then some t else none

theorem term?_eq_some {p : Pool} {i : NodeId} {t : Term} :
    p.term? i = some t ↔ (p.unfold i).isComplete = true ∧ p.unfold i = t := by
  simp only [term?]
  split <;> simp [*]

/-- The ids of the nodes that an id leads to, each before its operands. -/
def walk? (p : Pool) (i : NodeId) : Option (List NodeId) := (p.term? i).map fun t => t.walk.map Term.id

end Pool

end QueryPipeline
