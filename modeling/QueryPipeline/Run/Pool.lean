import QueryPipeline.Expr.Pool
import QueryPipeline.Run.Eval

/-!
# Evaluation in a pool

`Pool.eval` evaluates what an id stands for by following the nodes of the pool, and looks only at those that the
evaluation comes to.  So a node may be shared by many, may lead outside the pool, and may even be an operand of its
own operand, as long as a connective stops the evaluation in time.

`evalTo_eq` says that this is the value of the unfolded term, and `eval_eq` that for an expression without holes
the depth does not matter.
-/

namespace QueryPipeline

namespace Pool

/-- The value of what an id stands for, followed down to the given depth. -/
def evalTo (p : Pool) (g : Setting) : (depth : Nat) → NodeId → Eval Value
  | 0, _ => throw .dangling
  | depth + 1, i =>
    match p.get? i with
    | none => throw .dangling
    | some n =>
      match n.form with
      | .literal l => return l.value g.names
      | .ident x => g.access.read x
      | .connective c l r => Eval.connective c (p.evalTo g depth l) (p.evalTo g depth r)
      | .operator op l r => Eval.operator op (p.evalTo g depth l) (p.evalTo g depth r)
      | .not e => Eval.not (p.evalTo g depth e)
      | .neg e => Eval.neg (p.evalTo g depth e)
      | .test t e x => Eval.test g.access t (p.evalTo g depth e) x
      | .assign x e => Eval.assign g.access x (p.evalTo g depth e)
      | .row kind s =>
        match p.slice? s with
        | none => throw .dangling
        | some is => Eval.row kind (Eval.each (p.evalTo g depth) is)
      | .part e k => Eval.part (p.evalTo g depth e) k

/-- Following the nodes to some depth is evaluating the term that they unfold to. -/
theorem evalTo_eq (p : Pool) (g : Setting) (depth : Nat) (i : NodeId) :
    p.evalTo g depth i = (p.unfoldTo depth i).eval g := by
  induction depth generalizing i with
  | zero => simp [evalTo, unfoldTo, Term.eval, Term.evalVia]
  | succ depth ih =>
    have hf : p.evalTo g depth = fun j => (p.unfoldTo depth j).evalVia g.names g.access := funext ih
    rw [evalTo, unfoldTo, Term.eval]
    cases p.get? i with
    | none => simp [Term.evalVia]
    | some n =>
      cases h : n.form with
      | row kind s => cases hs : p.slice? s <;> simp [h, hs, Term.evalVia, Term.evalAllVia_eq, hf, Eval.each_map]
      | _ => simp [h, Term.evalVia, hf]

/-- How deep an evaluation may go: deeper than any expression of the pool that is not part of itself. -/
def reach (p : Pool) : Nat := p.size + idLimit

/-- The value of what an id stands for. -/
def eval (p : Pool) (g : Setting) (i : NodeId) : Eval Value := p.evalTo g p.reach i

/-- The value of an expression without holes is the value of its term. -/
theorem eval_eq {p : Pool} {i : NodeId} (h : (p.unfold i).isComplete = true) (g : Setting) :
    p.eval g i = (p.unfold i).eval g := by
  rw [eval, evalTo_eq, unfold, unfoldTo_of_isComplete h (by simp [reach])]

end Pool

end QueryPipeline
