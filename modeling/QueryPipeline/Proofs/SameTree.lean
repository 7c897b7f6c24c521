import Mathlib.Data.List.Forall2
import QueryPipeline.Proofs.Chain
import QueryPipeline.Proofs.Renaming

/-!
# Expressions that are the same tree

`Term.recast` renames the variables of a term and gives its nodes other ids.  What a term binds, mentions, assigns and
evaluates to follows the names and does not depend on the ids.

Two terms are the same tree up to a renaming if they are equal once the names are renamed and the ids forgotten
(`Term.SameTree`).  Two pools may share nodes in different ways and still hold the same tree.
-/

namespace QueryPipeline

/-! ### Other names and other ids -/

/-- The place in the text stays, the id changes. -/
def Origin.move (g : NodeId → NodeId) (o : Origin) : Origin := ⟨g o.id, o.span⟩

mutual

/-- The term with its names renamed and the ids of its nodes changed. -/
@[simp]
def Term.recast (r : Renaming) (g : NodeId → NodeId) : Term → Term
  | hole => hole
  | literal o l => literal (o.move g) (l.rename r)
  | ident o x => ident (o.move g) (r x)
  | connective o c a b => connective (o.move g) c (recast r g a) (recast r g b)
  | operator o op a b => operator (o.move g) op (recast r g a) (recast r g b)
  | not o e => not (o.move g) (recast r g e)
  | neg o e => neg (o.move g) (recast r g e)
  | test o t e x => test (o.move g) t (recast r g e) (r x)
  | assign o x e => assign (o.move g) (r x) (recast r g e)
  | row o kind items => row (o.move g) kind (recastAll r g items)
  | part o e k => part (o.move g) (recast r g e) k

/-- The terms with their names renamed and the ids of their nodes changed. -/
def Term.recastAll (r : Renaming) (g : NodeId → NodeId) : List Term → List Term
  | [] => []
  | t :: ts => recast r g t :: recastAll r g ts

end

namespace Term

variable (r : Renaming) (g : NodeId → NodeId)

@[simp]
theorem recastAll_eq (ts : List Term) : recastAll r g ts = ts.map (recast r g) := by
  induction ts with
  | nil => rw [recastAll, List.map_nil]
  | cons t ts ih => rw [recastAll, ih, List.map_cons]

private theorem operands_recast (t : Term) : (t.recast r g).operands = t.operands.map (recast r g) := by
  cases t <;> simp [operands]

theorem span_recast (t : Term) : (t.recast r g).span = t.span := by
  cases t <;> simp [span, origin, Origin.move]

theorem bound?_recast (t : Term) : (t.recast r g).bound? = t.bound?.map r := by
  cases t with
  | test o q e x => cases hx : x.isPresent <;> simp [bound?, hx]
  | _ => simp [bound?]

private theorem boundTy_recast (t : Term) : (t.recast r g).boundTy = t.boundTy := by
  cases t <;> simp [boundTy]

theorem mention?_recast (t : Term) : (t.recast r g).mention? = t.mention?.map fun m => (r m.1, m.2) := by
  cases t <;> simp [mention?]

/-! ### Walks -/

private theorem preorders_recast {ts : List Term}
    (h : ∀ t ∈ ts, (t.recast r g).preorder = t.preorder.map (recast r g)) :
    preorders (ts.map (recast r g)) = (preorders ts).map (recast r g) := by
  induction ts with
  | nil => simp [preorders]
  | cons t ts ih => simp [preorders, h t (by simp), ih fun u hu => h u (by simp [hu])]

private theorem preorder_recast (t : Term) : (t.recast r g).preorder = t.preorder.map (recast r g) := by
  induction t using operandInduction with
  | step t ih => rw [preorder_eq, preorder_eq, operands_recast, preorders_recast r g ih, List.map_cons]

theorem walk_recast (t : Term) : (t.recast r g).walk = t.walk.map (recast r g) := by
  rw [walk_eq, walk_eq, preorder_recast]

private theorem postorders_recast {ts : List Term}
    (h : ∀ t ∈ ts, (t.recast r g).postorder = t.postorder.map (recast r g)) :
    postorders (ts.map (recast r g)) = (postorders ts).map (recast r g) := by
  induction ts with
  | nil => simp [postorders]
  | cons t ts ih => simp [postorders, h t (by simp), ih fun u hu => h u (by simp [hu])]

theorem settled_recast (t : Term) : (t.recast r g).settled = t.settled.map (recast r g) := by
  rw [settled_eq, settled_eq]
  induction t using operandInduction with
  | step t ih => rw [postorder_eq, postorder_eq, operands_recast, postorders_recast r g ih]; simp

private theorem areComplete_recast {ts : List Term} (h : ∀ t ∈ ts, (t.recast r g).isComplete = t.isComplete) :
    areComplete (ts.map (recast r g)) = areComplete ts := by
  induction ts with
  | nil => rfl
  | cons t ts ih => simp [areComplete, h t (by simp), ih fun u hu => h u (by simp [hu])]

private theorem isComplete_recast (t : Term) : (t.recast r g).isComplete = t.isComplete := by
  induction t using operandInduction with
  | step t ih =>
    cases t with
    | hole | literal | ident => simp [isComplete]
    | row o kind items =>
      have hitems : ∀ t ∈ items, (t.recast r g).isComplete = t.isComplete := ih
      rw [recast, isComplete, isComplete, recastAll_eq, areComplete_recast r g hitems]
    | connective o c a b | operator o c a b =>
      rw [recast, isComplete, isComplete, ih a (by simp [operands]), ih b (by simp [operands])]
    | not o e | neg o e | test o q e x | assign o x e | part o e k =>
      rw [recast, isComplete, isComplete, ih e (by simp [operands])]

/-! ### What a term assigns -/

private theorem someAssigns_recast {x : Symbol} {ts : List Term}
    (h : ∀ t ∈ ts, (t.recast r g).assigned (r x) = t.assigned x) :
    someAssigns (r x) (ts.map (recast r g)) = someAssigns x ts := by
  induction ts with
  | nil => rfl
  | cons t ts ih =>
    rw [List.map_cons, someAssigns, someAssigns, h t (by simp), ih fun u hu => h u (by simp [hu])]

private theorem assigned_recast (x : Symbol) (t : Term) : (t.recast r g).assigned (r x) = t.assigned x := by
  induction t using operandInduction with
  | step t ih =>
    cases t with
    | hole | literal | ident => simp [assigned]
    | connective o c a b =>
      cases c <;> rw [recast, assigned, assigned, ih a (by simp [operands]), ih b (by simp [operands])]
    | operator o op a b => rw [recast, assigned, assigned, ih a (by simp [operands]), ih b (by simp [operands])]
    | not o e | neg o e | part o e k => rw [recast, assigned, assigned, ih e (by simp [operands])]
    | test o q e y | assign o y e =>
      have he := ih e (by simp [operands])
      simp [assigned, he]
    | row o kind items =>
      have hitems : ∀ t ∈ items, (t.recast r g).assigned (r x) = t.assigned x := ih
      rw [recast, assigned, assigned, recastAll_eq, someAssigns_recast r g hitems]

private theorem condition_recast (t : Term) (x : Symbol) : (t.recast r g).condition (r x) = t.condition x := by
  rw [condition, condition, assigned_recast]

/-! ### What a term declares -/

end Term

/-- The declaration under its new name. -/
def Declaration.rename (r : Renaming) (d : Declaration) : Declaration := { d with name := r d.name }

/-- The clash under its new name. -/
def Clash.rename (r : Renaming) (c : Clash) : Clash := { c with name := r c.name }

/-- What an expression binds, under new names. -/
def Declared.rename (r : Renaming) (a : Declared) : Declared where
  names := a.names.map (Declaration.rename r)
  clashes := a.clashes.map (Clash.rename r)

namespace Declared

variable (r : Renaming) (a b : Declared)

private theorem find?_rename (x : Symbol) :
    (a.rename r).find? (r x) = (a.find? x).map (Declaration.rename r) := by
  simp [rename, find?, Declaration.rename, List.find?_map, Function.comp_def]

private theorem filter_rename (f : Option Declaration → Bool) (hf : ∀ o, f (o.map (Declaration.rename r)) = f o) :
    (b.rename r).names.filter (fun d => f ((a.rename r).find? d.name)) =
      (b.names.filter fun d => f (a.find? d.name)).map (Declaration.rename r) := by
  have hname : ∀ d : Declaration, f ((a.rename r).find? (d.rename r).name) = f (a.find? d.name) := by
    intro d
    rw [show (d.rename r).name = r d.name from rfl, find?_rename, hf]
  rw [show (b.rename r).names = b.names.map (Declaration.rename r) from rfl, List.filter_map]
  simp only [Function.comp_def, hname]

private theorem names_rename :
    (a.rename r).names ++ (b.rename r).names.filter (fun d => ((a.rename r).find? d.name).isNone) =
      (a.names ++ b.names.filter fun d => (a.find? d.name).isNone).map (Declaration.rename r) := by
  rw [filter_rename r a b Option.isNone (by simp), List.map_append]
  rfl

private theorem also_rename : (a.rename r).also (b.rename r) = (a.also b).rename r := by
  have hclashes : ((b.rename r).names.filter fun d => ((a.rename r).find? d.name).isSome).map
      (fun d => (⟨d.name, d.span, .samePath⟩ : Clash)) =
      ((b.names.filter fun d => (a.find? d.name).isSome).map fun d => ⟨d.name, d.span, .samePath⟩).map
        (Clash.rename r) := by
    rw [filter_rename r a b Option.isSome (by simp), List.map_map, List.map_map]
    rfl
  rw [also, also, names_rename, hclashes]
  simp [rename]

/-- The clash of a declaration with the one of the same name among the alternatives. -/
private theorem clash_rename (d : Declaration) :
    (match (a.rename r).find? (d.rename r).name with
      | some e => if e.ty = d.ty then Option.none else some ⟨(d.rename r).name, d.span, .types e.ty d.ty⟩
      | Option.none => Option.none) =
    (match a.find? d.name with
      | some e => if e.ty = d.ty then Option.none else some ⟨d.name, d.span, .types e.ty d.ty⟩
      | Option.none => Option.none : Option Clash).map (Clash.rename r) := by
  rw [show (d.rename r).name = r d.name from rfl, find?_rename]
  cases a.find? d.name with
  | none => rfl
  | some e => by_cases hty : e.ty = d.ty <;> simp [Declaration.rename, hty, Clash.rename]

private theorem orElse_rename : (a.rename r).orElse (b.rename r) = (a.orElse b).rename r := by
  rw [orElse, orElse, names_rename]
  simp only [rename, List.map_append, List.filterMap_map, List.map_filterMap]
  congr 2
  exact List.filterMap_congr fun d _ => clash_rename r a d

end Declared

namespace Term

variable (r : Renaming) (g : NodeId → NodeId)

private theorem declaredAfter_recast {ts : List Term} (h : ∀ t ∈ ts, (t.recast r g).declared = t.declared.rename r)
    (sofar : Declared) :
    declaredAfter (sofar.rename r) (ts.map (recast r g)) = (declaredAfter sofar ts).rename r := by
  induction ts generalizing sofar with
  | nil => rfl
  | cons t ts ih =>
    rw [List.map_cons, declaredAfter, declaredAfter, h t (by simp), Declared.also_rename]
    exact ih (fun u hu => h u (by simp [hu])) _

private theorem declared_recast (t : Term) : (t.recast r g).declared = t.declared.rename r := by
  induction t using operandInduction with
  | step t ih =>
    cases t with
    | hole | literal | ident => rfl
    | connective o c a b =>
      cases c <;>
        rw [recast, declared, declared, ih a (by simp [operands]), ih b (by simp [operands])]
      · exact Declared.also_rename r _ _
      · exact Declared.orElse_rename r _ _
    | operator o op a b =>
      rw [recast, declared, declared, ih a (by simp [operands]), ih b (by simp [operands])]
      exact Declared.also_rename r _ _
    | not o e | neg o e | assign o x e | part o e k => rw [recast, declared, declared, ih e (by simp [operands])]
    | test o q e x =>
      rw [recast, declared, declared, ih e (by simp [operands]), Renaming.isPresent_name]
      cases x.isPresent with
      | true => exact Declared.also_rename r _ (.one ⟨x, q.boundTy, o.span⟩)
      | false => rfl
    | row o kind items =>
      have hitems : ∀ t ∈ items, (t.recast r g).declared = t.declared.rename r := ih
      rw [recast, declared, declared, recastAll_eq]
      exact declaredAfter_recast r g hitems .none

end Term

private theorem Symbol.firstOfEach_map {α β : Type} (r : Renaming) {name : α → Symbol} {name' : β → Symbol} (φ : α → β)
    (h : ∀ a, name' (φ a) = r (name a)) (as : List α) :
    firstOfEach name' (as.map φ) = (firstOfEach name as).map φ := by
  induction as with
  | nil => rfl
  | cons a as ih =>
    rw [List.map_cons, firstOfEach, firstOfEach, ih, List.filter_map, List.map_cons]
    simp [Function.comp_def, h]

namespace Term

variable (r : Renaming) (g : NodeId → NodeId)

theorem clashes_recast (t : Term) : (t.recast r g).clashes = t.clashes.map (Clash.rename r) := by
  rw [clashes, declared_recast]
  exact Symbol.firstOfEach_map r (Clash.rename r) (fun _ => rfl) t.declared.clashes

private theorem firstTests_recast (t : Term) :
    (t.recast r g).firstTests = t.firstTests.map fun xu => (r xu.1, xu.2.recast r g) := by
  have hwalk : ((t.recast r g).walk.filterMap fun u => u.bound?.map fun x => (x, u)) =
      (t.walk.filterMap fun u => u.bound?.map fun x => (x, u)).map fun xu => (r xu.1, xu.2.recast r g) := by
    rw [walk_recast, List.filterMap_map, List.map_filterMap]
    simp [Function.comp_def, bound?_recast]
  rw [firstTests, hwalk]
  exact Symbol.firstOfEach_map r (fun xu : Symbol × Term => (r xu.1, xu.2.recast r g)) (fun _ => rfl) _

theorem patternVariables_recast (index : Nat) (t : Term) :
    (t.recast r g).patternVariables index = (t.patternVariables index).map (Binding.rename r) := by
  rw [patternVariables, patternVariables, firstTests_recast]
  simp [Function.comp_def, Binding.rename, boundTy_recast, condition_recast, span_recast]

theorem boundNames_recast (t : Term) : (t.recast r g).boundNames = t.boundNames.map r := by
  rw [boundNames, boundNames, walk_recast, List.filterMap_map, List.map_filterMap]
  exact List.filterMap_congr fun u _ => bound?_recast r g u

end Term

/-! ### Evaluation -/

/-- The ways to the variables that are called otherwise. -/
def Access.comap {σ : Type} (r : Renaming) (a : Access σ) : Access σ where
  read x := a.read (r x)
  assign x := a.assign (r x)
  bind x := a.bind (r x)

private theorem Literal.value_rename {r : Renaming} {names names' : SymbolTable} (h : names.Spells r names')
    (l : Literal) : (l.rename r).value names' = l.value names := by
  cases l with
  | str s => exact congrArg Value.str (h s)
  | int | bool | null => rfl

private theorem Test.run_comap {σ : Type} (r : Renaming) (a : Access σ) (q : Test) (x : Symbol) (v : Value) :
    q.run a.bind (r x) v = q.run (a.comap r).bind x v := by
  cases q <;> simp [Test.run, Access.comap]

namespace Term

variable {σ : Type} {r : Renaming} {names names' : SymbolTable}

private theorem each_congr {eval eval' : Term → Computation σ Value} {ts : List Term}
    (h : ∀ t ∈ ts, eval t = eval' t) : Eval.each eval ts = Eval.each eval' ts := by
  induction ts with
  | nil => rfl
  | cons t ts ih => rw [Eval.each, Eval.each, h t (by simp), ih fun u hu => h u (by simp [hu])]

/-- Evaluating the renamed expression is evaluating the expression over the renamed variables. -/
theorem evalVia_recast (h : names.Spells r names') (g : NodeId → NodeId) (a : Access σ) (t : Term) :
    (t.recast r g).evalVia names' a = t.evalVia names (a.comap r) := by
  induction t using operandInduction with
  | step t ih =>
    cases t with
    | hole => rfl
    | literal o l => rw [recast, evalVia, evalVia, Literal.value_rename h]
    | ident o x => rfl
    | connective o c a b | operator o c a b =>
      rw [recast, evalVia, evalVia, ih a (by simp [operands]), ih b (by simp [operands])]
    | not o e | neg o e | part o e k => rw [recast, evalVia, evalVia, ih e (by simp [operands])]
    | test o q e x =>
      rw [recast, evalVia, evalVia, ih e (by simp [operands]), Eval.test, Eval.test]
      simp only [Test.run_comap]
    | assign o x e =>
      rw [recast, evalVia, evalVia, ih e (by simp [operands])]
      rfl
    | row o kind items =>
      have hitems : Eval.each (evalVia names' a) (items.map (recast r g)) =
          Eval.each (evalVia names (a.comap r)) items := by
        rw [Eval.each_map]
        exact each_congr ih
      rw [recast, evalVia, evalVia, evalAllVia_eq, evalAllVia_eq, recastAll_eq, hitems]

end Term

/-! ### Memories and pools -/

/-- The memory with its variables renamed. -/
def Memory.rename (r : Renaming) (m : Memory) : Memory := ⟨m.locals.rename r, m.captures.rename r⟩

/-- The setting with its names renamed. -/
def Setting.rename (r : Renaming) (names' : SymbolTable) (g : Setting) : Setting := ⟨names', g.declared.map r⟩

section Renamed

variable {r : Renaming} {names' : SymbolTable} {g : Setting}

theorem Memory.find?_rename (m : Memory) (x : Symbol) :
    (m.rename r).find? (g.rename r names') (r x) = m.find? g x := by
  simp [Memory.find?, Memory.rename, Setting.rename]

open QueryPipeline.Computation (InStep)

private theorem Eval.store_rename (h : g.names.Spells r names') (x : Symbol) (v : Value) (m : Memory) :
    Eval.store (g.rename r names') (r x) v (m.rename r) =
      (Eval.store g x v m).map fun s => (s.1, s.2.rename r) := by
  have hunbound : (g.rename r names').unbound (r x) = g.unbound x := congrArg Fault.unbound (h x)
  rw [Eval.store_apply, Eval.store_apply, hunbound]
  simp only [Memory.rename, Setting.rename, Store.contains_rename, Renaming.contains_map, ← Store.rename_insert]
  split
  · rfl
  · split <;> rfl

private theorem Eval.read_rename (h : g.names.Spells r names') (x : Symbol) (m : Memory) :
    Eval.read (g.rename r names') (r x) (m.rename r) = (Eval.read g x m).map fun s => (s.1, s.2.rename r) := by
  have hunbound : (g.rename r names').unbound (r x) = g.unbound x := congrArg Fault.unbound (h x)
  show (Computation.ofOption ((g.rename r names').unbound (r x)) ((m.rename r).find? (g.rename r names') (r x)) :
    Eval Value) (m.rename r) = ((Computation.ofOption (g.unbound x) (m.find? g x) : Eval Value) m).map _
  rw [hunbound, Memory.find?_rename]
  cases m.find? g x <;> rfl

private theorem Eval.setLocal_rename (x : Symbol) (v : Value) (m : Memory) :
    Eval.setLocal (r x) v (m.rename r) = (Eval.setLocal x v m).map fun s => (s.1, s.2.rename r) := by
  show Except.ok ((), { m.rename r with locals := (m.locals.rename r).insert (r x) v }) = _
  rw [← Store.rename_insert]
  rfl

private theorem Setting.access_rename (h : g.names.Spells r names') (t : Term) :
    g.access.InStepOn (fun m m' => m' = m.rename r) ((g.rename r names').access.comap r) t := by
  refine ⟨fun u _ x _ => ?_, fun u _ x _ v => ?_, fun o q e x _ v _ => ?_⟩
  · rintro m _ rfl
    exact Computation.agree_map.2 (Eval.read_rename h x m)
  · rintro m _ rfl
    exact Computation.agree_map.2 (Eval.store_rename h x v m)
  · rintro m _ rfl
    exact Computation.agree_map.2 (Eval.setLocal_rename x v m)

/-- Evaluating the renamed expression goes in step with evaluating the expression. -/
theorem Term.eval_recast (h : g.names.Spells r names') (move : NodeId → NodeId) (t : Term) :
    InStep (fun m m' => m' = m.rename r) (t.eval g) ((t.recast r move).eval (g.rename r names')) := by
  have hvia := evalVia_inStep g.names t (Setting.access_rename h t)
  rw [← evalVia_recast h move] at hvia
  exact hvia

end Renamed

namespace Pool

variable (r : Renaming) (p : Pool)

theorem get?_rename (i : NodeId) : (p.rename r).get? i = (p.get? i).map fun n => ⟨n.form.rename r, n.span⟩ := by
  simp [get?, rename]

theorem unfoldTo_rename (depth : Nat) (i : NodeId) :
    (p.rename r).unfoldTo depth i = (p.unfoldTo depth i).recast r fun j => j := by
  induction depth generalizing i with
  | zero => rfl
  | succ depth ih =>
    have hslice : ∀ s, (p.rename r).slice? s = p.slice? s := fun _ => rfl
    rw [unfoldTo, unfoldTo, get?_rename]
    cases p.get? i with
    | none => rfl
    | some n =>
      obtain ⟨form, span⟩ := n
      cases form with
      | row kind s =>
        simp only [Option.map_some, Form.rename, hslice]
        cases p.slice? s with
        | none => rfl
        | some is => simp [Origin.move, ih]
      | _ => simp [Form.rename, Origin.move, ih]

private theorem unfold_rename (i : NodeId) : (p.rename r).unfold i = (p.unfold i).recast r fun j => j := by
  have hsize : (p.rename r).size = p.size := by simp [size, rename]
  rw [unfold, unfold, hsize, unfoldTo_rename]

theorem term?_rename (i : NodeId) : (p.rename r).term? i = (p.term? i).map (Term.recast r fun j => j) := by
  unfold term?
  simp only [unfold_rename, Term.isComplete_recast]
  split <;> rfl

end Pool

/-! ### Trees -/

/-- The term without the ids of its nodes.  It does not tell which nodes are shared. -/
def Term.tree (t : Term) : Term := t.recast .refl fun _ => .absent

namespace Term

variable (t : Term)

theorem operands_tree : t.tree.operands = t.operands.map tree := operands_recast _ _ t

theorem walk_tree : t.tree.walk = t.walk.map tree := walk_recast _ _ t

theorem settled_tree : t.tree.settled = t.settled.map tree := settled_recast _ _ t

theorem span_tree : t.tree.span = t.span := span_recast _ _ t

theorem bound?_tree : t.tree.bound? = t.bound? := by
  rw [tree, bound?_recast, Renaming.refl_eq_id, Option.map_id, id_eq]

theorem mention?_tree : t.tree.mention? = t.mention? := by
  rw [tree, mention?_recast]
  exact Option.map_id_apply

theorem boundNames_tree : t.tree.boundNames = t.boundNames := by
  rw [tree, boundNames_recast, Renaming.refl_eq_id, List.map_id]

theorem eval_tree (g : Setting) : t.tree.eval g = t.eval g := evalVia_recast (.refl g.names) _ g.access t

end Term

end QueryPipeline
