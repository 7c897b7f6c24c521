import Mathlib.Data.List.Forall2
import QueryPipeline.Proofs.Computation
import QueryPipeline.Proofs.Renaming

/-!
# Stages side by side

Two computations are coupled if from related states both end with the same failure, or both succeed with related
results and related states (`Computation.Coupled`).

Two stages are alike if they do the same with expressions that correspond, up to a renaming of variables
(`Stage.Alike`).  If evaluating corresponding expressions is coupled, the stages go in step
(`Stage.Alike.stepWith_inStep`), and so do whole runs through such stages (`Pipeline.runWith_agree`).
-/

namespace QueryPipeline

namespace Computation

variable {σ τ α β γ δ : Type}

/-- The same failure, or related results with related states. -/
inductive Paired (Q : α → β → Prop) (R : σ → τ → Prop) :
    Except (Failure Fault) (α × σ) → Except (Failure Fault) (β × τ) → Prop
  | ok {a : α} {b : β} {s : σ} {t : τ} (hab : Q a b) (hst : R s t) : Paired Q R (.ok (a, s)) (.ok (b, t))
  | error (e : Failure Fault) : Paired Q R (.error e) (.error e)

/-- From related states the two computations end in a pair. -/
def Coupled (Q : α → β → Prop) (R : σ → τ → Prop) (x : Computation σ α) (y : Computation τ β) : Prop :=
  ∀ s t, R s t → Paired Q R (x s) (y t)

namespace Coupled

variable {Q : α → β → Prop} {R : σ → τ → Prop}

theorem pure {a : α} {b : β} (h : Q a b) : Coupled Q R (pure a) (pure b) := fun _ _ hst => .ok h hst

theorem bind {Q' : γ → δ → Prop} {x : Computation σ α} {y : Computation τ β} {f : α → Computation σ γ}
    {g : β → Computation τ δ} (h : Coupled Q R x y) (hfg : ∀ a b, Q a b → Coupled Q' R (f a) (g b)) :
    Coupled Q' R (x >>= f) (y >>= g) := by
  intro s t hst
  rw [bind_apply, bind_apply]
  have hxy := h s t hst
  generalize x s = u at hxy
  generalize y t = u' at hxy
  cases hxy with
  | ok hab hst' => exact hfg _ _ hab _ _ hst'
  | error e => exact .error e

/-- Coupled computations may be followed by computations that go in step. -/
theorem bind_inStep {x : Computation σ α} {y : Computation τ β} {f : α → Computation σ γ} {g : β → Computation τ γ}
    (h : Coupled Q R x y) (hfg : ∀ a b, Q a b → InStep R (f a) (g b)) : InStep R (x >>= f) (y >>= g) := by
  intro s t hst
  rw [bind_apply, bind_apply]
  have hxy := h s t hst
  generalize x s = u at hxy
  generalize y t = u' at hxy
  cases hxy with
  | ok hab hst' => exact hfg _ _ hab _ _ hst'
  | error e => exact .error e

theorem mono {Q' : α → β → Prop} {x : Computation σ α} {y : Computation τ β} (h : Coupled Q R x y)
    (hQ : ∀ a b, Q a b → Q' a b) : Coupled Q' R x y := by
  intro s t hst
  have hxy := h s t hst
  generalize x s = u at hxy
  generalize y t = u' at hxy
  cases hxy with
  | ok hab hst' => exact .ok (hQ _ _ hab) hst'
  | error e => exact .error e

theorem ofExcept (x : Except Fault α) (f : α → β) :
    Coupled (fun a b => b = f a) R (ofExcept x) (Computation.ofExcept (x.map f)) := by
  cases x with
  | ok a => exact pure rfl
  | error e => exact fun _ _ _ => .error (.error e)

theorem ofOption (fault : Fault) (o : Option α) (f : α → β) :
    Coupled (fun a b => b = f a ∧ o = some a) R (ofOption fault o) (Computation.ofOption fault (o.map f)) := by
  cases o with
  | some a => exact pure ⟨rfl, rfl⟩
  | none => exact fun _ _ _ => .error (.error fault)

end Coupled

end Computation

open QueryPipeline.Computation (InStep Coupled)

/-! ### Alike stages -/

/-- The same computation with expressions that correspond. -/
inductive Body.Alike {ε δ : Type} (E : ε → δ → Prop) : Body ε → Body δ → Prop
  | extend {bs bs'} (h : List.Forall₂ (fun a b => b.1 = a.1 ∧ E a.2 b.2) bs bs') : Alike E (.extend bs) (.extend bs')
  | destructure {e e' parts} (h : E e e') : Alike E (.destructure e parts) (.destructure e' parts)
  | generate {e e' b} (h : E e e') : Alike E (.generate e b) (.generate e' b)
  | predicate {e e'} (h : E e e') : Alike E (.predicate e) (.predicate e')
  | guard {e e'} (h : E e e') : Alike E (.guard e) (.guard e')
  | rejectAbsent : Alike E .rejectAbsent .rejectAbsent
  | unwrap : Alike E .unwrap .unwrap
  | project {e e'} (h : E e e') : Alike E (.project e) (.project e')

theorem Body.Alike.refl {ε : Type} {E : ε → ε → Prop} {b : Body ε} (h : ∀ e ∈ b.exprs, E e e) : b.Alike E b := by
  cases b with
  | extend bindings =>
    refine .extend (List.forall₂_same.2 fun q hq => ⟨rfl, h q.2 ?_⟩)
    exact List.mem_map.2 ⟨q, hq, rfl⟩
  | destructure e parts => exact .destructure (h e (by simp [Body.exprs]))
  | generate e id => exact .generate (h e (by simp [Body.exprs]))
  | predicate e => exact .predicate (h e (by simp [Body.exprs]))
  | guard e => exact .guard (h e (by simp [Body.exprs]))
  | rejectAbsent => exact .rejectAbsent
  | unwrap => exact .unwrap
  | project e => exact .project (h e (by simp [Body.exprs]))

/-- The same stage, with its variables renamed and expressions that correspond. -/
structure Stage.Alike {ε δ : Type} (r : Renaming) (E : ε → δ → Prop) (s : Stage ε) (s' : Stage δ) : Prop where
  kind : s'.kind = s.kind
  input : s'.input = s.input.rename r
  output : s'.output = s.output.rename r
  body : s.body.Alike E s'.body

/-- Evaluating corresponding expressions with variables that have `L` is coupled, and keeps `L`. -/
def Pool.EvalCoupled (r : Renaming) (E : NodeId → NodeId → Prop) (L : Store → Prop) (R : Store → Store → Prop)
    (p : Pool) (g : Setting) (p' : Pool) (g' : Setting) : Prop :=
  ∀ e e' locals, E e e' → L locals →
    Coupled (fun a b => b.1 = a.1 ∧ b.2 = a.2.rename r ∧ L a.2) R (p.evalWith g e locals)
      (p'.evalWith g' e' (locals.rename r))

/-- Evaluation with some variables is coupled if evaluation over memories goes in step. -/
theorem Pool.evalWith_coupled {M : Memory → Memory → Prop} (Q : Store → Store → Prop) {R : Store → Store → Prop}
    {p p' : Pool} {g g' : Setting} {e e' : NodeId} {locals locals' : Store} (h : InStep M (p.eval g e) (p'.eval g' e'))
    (hin : ∀ s t, R s t → M ⟨locals, s⟩ ⟨locals', t⟩)
    (hout : ∀ m m', M m m' → Q m.locals m'.locals ∧ R m.captures m'.captures) :
    Coupled (fun a b => b.1 = a.1 ∧ Q a.2 b.2) R (p.evalWith g e locals) (p'.evalWith g' e' locals') := by
  intro s t hst
  unfold Pool.evalWith
  have heval := h _ _ (hin s t hst)
  generalize p.eval g e ⟨locals, s⟩ = u at heval
  generalize p'.eval g' e' ⟨locals', t⟩ = u' at heval
  cases heval with
  | ok hm => exact .ok ⟨rfl, (hout _ _ hm).1⟩ (hout _ _ hm).2
  | error e => exact .error e

section Step

variable {r : Renaming} {E : NodeId → NodeId → Prop} {L : Store → Prop} {R : Store → Store → Prop} {p p' : Pool}
variable {g g' : Setting} {locals : Store}

private theorem Carrier.extend_coupled {C : Carrier} (h : p.EvalCoupled r E L R g p' g')
    (hadd : ∀ locals id v, L locals → L (C.addTo locals id v)) {bs bs' : List (BindingId × NodeId)}
    (hbs : List.Forall₂ (fun a b => b.1 = a.1 ∧ E a.2 b.2) bs bs') (hl : L locals) :
    Coupled (fun a b => b = a.rename r) R (C.extend p g locals bs)
      ((C.rename r).extend p' g' (locals.rename r) bs') := by
  induction hbs generalizing locals with
  | nil => exact .pure rfl
  | @cons a b bs bs' hab _ ih =>
    obtain ⟨id, e⟩ := a
    obtain ⟨id', e'⟩ := b
    obtain ⟨rfl, he⟩ := hab
    refine .bind (h e e' locals he hl) fun a b hab => ?_
    obtain ⟨v, locals⟩ := a
    obtain ⟨v', locals'⟩ := b
    obtain rfl : v' = v := hab.1
    obtain rfl : locals' = locals.rename r := hab.2.1
    simp only [Carrier.addTo_rename]
    exact ih (hadd _ _ _ hab.2.2)

/-! What a stage does first: it takes its variables, finds its carrier, evaluates its expression. -/

private theorem bind_locals {input : Shape} {index : Nat} {v : Value} {f f' : Store → Run (List Value)}
    (hin : ∀ locals, input.unpack? v = some locals → L locals)
    (h : ∀ locals, L locals → InStep R (f locals) (f' (locals.rename r))) :
    InStep R (Computation.ofOption (.shapeMismatch index) (input.unpack? v) >>= f)
      (Computation.ofOption (.shapeMismatch index) ((input.rename r).unpack? v) >>= f') := by
  rw [Shape.unpack?_rename]
  refine (Coupled.ofOption _ _ _).bind_inStep fun locals _ hl => ?_
  obtain ⟨rfl, hl⟩ := hl
  exact h locals (hin locals hl)

private theorem bind_target {output : Shape} {index : Nat} {f f' : Carrier → Run (List Value)}
    (h : ∀ C, InStep R (f C) (f' (C.rename r))) :
    InStep R (Computation.ofOption (.shapeMismatch index) output.carrier? >>= f)
      (Computation.ofOption (.shapeMismatch index) (output.rename r).carrier? >>= f') := by
  rw [Shape.carrier?_rename]
  refine (Coupled.ofOption _ _ _).bind_inStep fun C _ hC => ?_
  obtain ⟨rfl, -⟩ := hC
  exact h C

private theorem bind_eval (heval : p.EvalCoupled r E L R g p' g') {e e' : NodeId} (he : E e e') (hl : L locals)
    {f f' : Value × Store → Run (List Value)}
    (h : ∀ v locals, InStep R (f (v, locals)) (f' (v, locals.rename r))) :
    InStep R (p.evalWith g e locals >>= f) (p'.evalWith g' e' (locals.rename r) >>= f') := by
  refine (heval e e' locals he hl).bind_inStep fun a b hab => ?_
  obtain ⟨v, locals⟩ := a
  obtain ⟨v', locals'⟩ := b
  obtain rfl : v' = v := hab.1
  obtain rfl : locals' = locals.rename r := hab.2.1
  exact h v' locals

private theorem bind_holds (heval : p.EvalCoupled r E L R g p' g') {e e' : NodeId} (he : E e e') (hl : L locals)
    {f f' : Bool × Store → Run (List Value)}
    (h : ∀ b locals, InStep R (f (b, locals)) (f' (b, locals.rename r))) :
    InStep R (p.holdsWith g e locals >>= f) (p'.holdsWith g' e' (locals.rename r) >>= f') := by
  simp only [Pool.holdsWith, bind_assoc]
  refine bind_eval heval he hl fun v locals => ?_
  exact .bind (.ofExcept _) fun b => h b locals

private theorem pack_inStep (hnames : g.names.Spells r g'.names) (C : Carrier) (locals : Store) :
    InStep R (Computation.ofExcept (C.pack g.names locals) >>= fun w => pure [w] : Run (List Value))
      (Computation.ofExcept ((C.rename r).pack g'.names (locals.rename r)) >>= fun w => pure [w]) := by
  rw [Carrier.pack_rename hnames]
  exact .bind (.ofExcept _) fun w => .pure [w]

/-- Alike stages go in step, if evaluating their expressions is coupled. -/
theorem Stage.Alike.stepWith_inStep {s s' : Stage NodeId} {v : Value} (hs : s.Alike r E s')
    (hnames : g.names.Spells r g'.names) (heval : p.EvalCoupled r E L R g p' g')
    (hadd : ∀ C : Carrier, ∀ locals id v, L locals → L (C.addTo locals id v))
    (hin : ∀ locals, s.input.unpack? v = some locals → L locals) (index : Nat) :
    InStep R (s.stepWith p g index v) (s'.stepWith p' g' index v) := by
  obtain ⟨kind, input, output, body, clause⟩ := s
  obtain ⟨kind', input', output', body', clause'⟩ := s'
  obtain ⟨hkind, hinput, houtput, hbody⟩ := hs
  dsimp only at hkind hinput houtput hbody hin
  subst hkind hinput houtput
  -- a body that does not go with the combinator fails in both
  cases hbody with
  | predicate he =>
    cases kind' with
    | map | flatMap => exact .fail _
    | filter => exact bind_locals hin fun locals hl => bind_holds heval he hl fun b locals => .pure _
  | rejectAbsent =>
    cases kind' with
    | map | flatMap => exact .fail _
    | filter =>
      cases input with
      | carrier | projection => exact .fail _
      | outcome C encoding => exact .bind (.ofOption _ _) fun payload => .pure _
  | unwrap =>
    cases kind' with
    | filter | flatMap => exact .fail _
    | map =>
      cases input with
      | carrier | projection => exact .fail _
      | outcome C encoding => exact .bind (.ofOption _ _) fun payload => .pure _
  | guard he =>
    cases kind' with
    | filter | flatMap => exact .fail _
    | map =>
      cases output with
      | carrier | projection => exact .fail _
      | outcome C encoding =>
        refine bind_locals hin fun locals hl => bind_holds heval he hl fun b locals => ?_
        cases b with
        | true =>
          simp only [if_true, Carrier.pack_rename hnames]
          exact .bind (.ofExcept _) fun payload => .pure _
        | false => exact .pure _
  | extend hbs =>
    cases kind' with
    | filter | flatMap => exact .fail _
    | map =>
      refine bind_target fun C => bind_locals hin fun locals hl => ?_
      refine (Carrier.extend_coupled heval (hadd C) hbs hl).bind_inStep fun locals _ hl => ?_
      subst hl
      exact pack_inStep hnames C locals
  | destructure he =>
    cases kind' with
    | filter | flatMap => exact .fail _
    | map =>
      refine bind_target fun C => bind_locals hin fun locals hl => bind_eval heval he hl fun composite locals => ?_
      simp only [Carrier.extract_rename]
      refine (Coupled.ofExcept _ _).bind_inStep fun locals _ hl => ?_
      subst hl
      exact pack_inStep hnames C locals
  | generate he =>
    cases kind' with
    | filter | map => exact .fail _
    | flatMap =>
      refine bind_target fun C => bind_locals hin fun locals hl => bind_eval heval he hl fun collection locals => ?_
      refine .bind (.ofExcept _) fun items => ?_
      rw [Carrier.packEach_rename hnames]
      exact .ofExcept _
  | project he =>
    cases kind' with
    | filter | flatMap => exact .fail _
    | map => exact bind_locals hin fun locals hl => bind_eval heval he hl fun result locals => .pure _

end Step

/-! ### Runs -/

namespace Run

variable {R : Store → Store → Prop} {p p' : Pool} {names names' : SymbolTable}

private theorem forEach_inStep {f f' : Value → Run (List Value)} (h : ∀ v, InStep R (f v) (f' v)) (vs : List Value) :
    InStep R (forEach f vs) (forEach f' vs) := by
  induction vs with
  | nil => exact .pure []
  | cons v vs ih => exact .bind (h v) fun a => .bind ih fun b => .pure (a ++ b)

/-- Stages that go in step one by one go in step one after the other. -/
theorem through_inStep {S : Stage NodeId → Stage NodeId → Prop}
    (hstep : ∀ s s', S s s' → ∀ index v, InStep R (s.step p names index v) (s'.step p' names' index v))
    {stages stages' : List (Stage NodeId)} (h : List.Forall₂ S stages stages') (index : Nat) (v : Value) :
    InStep R (through p names index stages v) (through p' names' index stages' v) := by
  induction h generalizing index v with
  | nil => exact .pure [v]
  | cons hs _ ih => exact .bind (hstep _ _ hs index v) fun vs => forEach_inStep (ih (index + 1)) vs

end Run

/-- If the sources are coupled and the stages go in step, so do the runs. -/
theorem Pipeline.runWith_agree {R : Store → Store → Prop} {p p' : Pipeline} {names names' : SymbolTable}
    {S : Stage NodeId → Stage NodeId → Prop}
    (hsource : Coupled (fun a b => b.1 = a.1) R (p.pool.evalWith ⟨names, []⟩ p.source .empty)
      (p'.pool.evalWith ⟨names', []⟩ p'.source .empty))
    (hstep : ∀ s s', S s s' → ∀ index v, InStep R (s.step p.pool names index v) (s'.step p'.pool names' index v))
    (hstages : List.Forall₂ S p.stages p'.stages) {captures captures' : Store} (h : R captures captures') :
    Computation.Agree R (p.runWith names captures) (p'.runWith names' captures') := by
  have helements : InStep R (p.elements names) (p'.elements names') := by
    refine hsource.bind_inStep fun a b hab => ?_
    obtain ⟨v, locals⟩ := a
    obtain ⟨v', locals'⟩ := b
    obtain rfl : v' = v := hab
    exact .ofExcept _
  have hrun : InStep R (p.elements names >>= Run.forEach (Run.through p.pool names 0 p.stages))
      (p'.elements names' >>= Run.forEach (Run.through p'.pool names' 0 p'.stages)) :=
    .bind helements fun items => Run.forEach_inStep (Run.through_inStep hstep hstages 0) items
  exact hrun captures captures' h

end QueryPipeline
