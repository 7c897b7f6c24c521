import Mathlib
import QueryPipeline.Proofs.Coupling
import QueryPipeline.Proofs.Lowering
import QueryPipeline.Proofs.Recast

/-!
# The order of interning does not matter

Names are numbers, handed out in the order in which spellings arrive.  If the numbers are changed, and the table of
spellings with them, a query is rejected with the same report or gives the same pipeline with the numbers changed, and
runs go the same way (`Query.interning_irrelevant`).
-/

namespace QueryPipeline

open QueryPipeline.Computation (InStep Coupled)

/-- A permutation of the names that leaves the blank one alone. -/
def Renaming.ofPerm (e : Equiv.Perm Symbol) (h : e .blank = .blank) : Renaming := ⟨e, fun _ _ hxy => e.injective hxy, h⟩

/-! ### Ids that stay -/

private theorem Term.recast_refl (t : Term) : t.recast .refl (fun j => j) = t := by
  induction t using operandInduction with
  | step t ih =>
    have hliteral : ∀ l : Literal, l.rename .refl = l := fun l => by cases l <;> rfl
    cases t with
    | hole => rfl
    | literal o l => rw [recast, hliteral]; rfl
    | ident o x => rfl
    | connective o c a b | operator o c a b =>
      rw [recast, ih a (by simp [operands]), ih b (by simp [operands])]
      rfl
    | not o e | neg o e | test o q e x | assign o x e | part o e k =>
      rw [recast, ih e (by simp [operands])]
      rfl
    | row o kind items =>
      have hitem : ∀ t ∈ items, t.recast .refl (fun j => j) = t := ih
      have hitems : items.map (recast .refl fun j => j) = items := by
        rw [List.map_congr_left hitem]
        exact List.map_id items
      rw [recast, recastAll_eq, hitems]
      rfl

/-- The chain with its names renamed. -/
def Chain.rename (r : Renaming) (c : Chain) : Chain := c.recast r (fun j => j) (c.pool.rename r)

private theorem Chain.recast_refl (c : Chain) : c.recast .refl (fun j => j) c.pool = c := by
  have hlinks : c.links.map (Link.recast .refl fun j => j) = c.links := by
    have hlink : ∀ l ∈ c.links, l.recast .refl (fun j => j) = l := fun l _ => by rw [Link.recast, Term.recast_refl]
    rw [List.map_congr_left hlink]
    exact List.map_id c.links
  have hbindings : c.bindings.map (Binding.rename .refl) = c.bindings := Array.map_id c.bindings
  rw [Chain.recast, hlinks, hbindings]

private theorem Pipeline.recast_same (r : Renaming) (p : Pipeline) :
    p.recast r (fun j => j) (p.pool.rename r) = p.rename r := by
  have hbody : ∀ b : Body NodeId, b.map (fun j => j) = b := by
    intro b
    cases b with
    | extend bindings => exact congrArg Body.extend (List.map_id bindings)
    | _ => rfl
  have hstages : p.stages.map (Stage.recast r fun j => j) =
      p.stages.map fun s => { s with input := s.input.rename r, output := s.output.rename r } :=
    List.map_congr_left fun s _ => by rw [Stage.recast, hbody]
  rw [Pipeline.recast, hstages, Pipeline.rename]

/-! ### Building and lowering -/

private theorem Query.chain_rename (r : Renaming) (q : Query) : (q.rename r).chain = q.chain.map (Chain.rename r) := by
  have hpool : (q.rename r).pool = q.pool.rename r := rfl
  have halike : List.Forall₂ (Clause.Alike r (fun j => j) (fun j => j) q.pool (q.rename r).pool) q.clauses
      (q.rename r).clauses := by
    refine List.forall₂_map_right_iff.2 (List.forall₂_same.2 fun c _ => ⟨rfl, rfl, rfl, rfl, ?_, rfl, ?_⟩)
    · rw [hpool, Pool.get?_rename, Option.isSome_map]
    · rw [hpool, Pool.term?_rename, Option.map_map]
      exact congrArg (fun φ => (q.pool.term? c.expr).map φ) (funext fun t => Term.recast_refl _)
  calc (q.rename r).chain
      = (q.rename r).chain.map (fun c => c) := by cases (q.rename r).chain <;> rfl
    _ = (q.rename r).chain.map (Chain.recast .refl (fun j => j) (q.rename r).pool) := by
        refine Except.map_congr_ok fun c hc => ?_
        obtain ⟨-, -, -, hpool, -⟩ := Query.chain_eq_ok hc
        rw [← hpool, Chain.recast_refl]
    _ = q.chain.map (Chain.recast r (fun j => j) (q.rename r).pool) := Query.chain_alike halike _
    _ = q.chain.map (Chain.rename r) := by
        refine Except.map_congr_ok fun c hc => ?_
        obtain ⟨-, -, -, hc, -⟩ := Query.chain_eq_ok hc
        rw [hpool, ← hc, Chain.rename]

private theorem Chain.lower_pool {c : Chain} {names : SymbolTable} {policy : ScopePolicy} {p : Pipeline}
    (h : c.lower names policy = .ok p) : p.pool = c.pool := by
  obtain ⟨⟨f, plan⟩, -, hpipeline⟩ := Except.bind_eq_ok.1 h
  have hpipeline : c.pipeline f plan names = .ok p := hpipeline
  unfold Chain.pipeline at hpipeline
  split at hpipeline
  · split at hpipeline
    · cases hpipeline
    · obtain ⟨_, -, hp⟩ := Except.bind_eq_ok.1 hpipeline
      obtain rfl := Except.ok.inj hp
      rfl
  · cases hpipeline
  · cases hpipeline

theorem Query.lower_rename {r : Renaming} {names names' : SymbolTable} (h : names.Spells r names') (q : Query)
    (policy : ScopePolicy) : (q.rename r).lower names' policy = (q.lower names policy).map (Pipeline.rename r) := by
  rw [Query.lower, Query.lower, Query.chain_rename]
  refine Except.map_bind fun c => ?_
  have hlower : (c.rename r).lower names' policy =
      (c.lower names policy).map (Pipeline.recast r (fun j => j) (c.pool.rename r)) :=
    Chain.lower_rename (c.pool.rename r) c h policy
  rw [hlower]
  refine Except.map_congr_ok fun p hp => ?_
  rw [← Chain.lower_pool hp, Pipeline.recast_same]

/-! ### Running -/

section Runs

variable {r : Renaming} {names names' : SymbolTable}

/-- Evaluation in the renamed pool goes in step with evaluation in the pool. -/
private theorem Pool.eval_rename {g : Setting} (h : g.names.Spells r names') (p : Pool) (i : NodeId) :
    InStep (fun m m' => m' = m.rename r) (p.eval g i) ((p.rename r).eval (g.rename r names') i) := by
  have hreach : (p.rename r).reach = p.reach := by simp [Pool.reach, Pool.size, Pool.rename]
  rw [Pool.eval, Pool.eval, Pool.evalTo_eq, Pool.evalTo_eq, hreach, Pool.unfoldTo_rename]
  exact Term.eval_recast h _ _

private theorem Pool.evalWith_rename {g : Setting} (h : g.names.Spells r names') (p : Pool) (i : NodeId)
    (locals : Store) :
    Coupled (fun a b => b.1 = a.1 ∧ b.2 = a.2.rename r ∧ True) (fun s t => t = s.rename r) (p.evalWith g i locals)
      ((p.rename r).evalWith (g.rename r names') i (locals.rename r)) := by
  refine Pool.evalWith_coupled (fun a b => b = a.rename r ∧ True) (Pool.eval_rename h p i) ?_ ?_
  · rintro s _ rfl
    rfl
  · rintro m _ rfl
    exact ⟨⟨rfl, trivial⟩, rfl⟩

private theorem Stage.step_rename (h : names.Spells r names') (p : Pool) (s : Stage NodeId) (index : Nat) (v : Value) :
    InStep (fun s t => t = s.rename r) (s.step p names index v)
      (Stage.step (p.rename r) names' index { s with input := s.input.rename r, output := s.output.rename r } v) := by
  have hdeclared : s.body.declared? (p.rename r) = (s.body.declared? p).map (List.map r) := by
    unfold Body.declared?
    cases s.body.expr? with
    | none => rfl
    | some i =>
      have hnames : ∀ t : Term, (t.recast r fun j => j).walk.filterMap Term.bound? =
          (t.walk.filterMap Term.bound?).map r := Term.boundNames_recast r _
      simp [Pool.term?_rename, Function.comp_def, hnames]
  unfold Stage.step
  simp only [hdeclared]
  cases s.body.declared? p with
  | none => exact .throw _
  | some declared =>
    have halike : s.Alike r (fun e e' => e' = e)
        { s with input := s.input.rename r, output := s.output.rename r } := ⟨rfl, rfl, rfl, .refl fun _ _ => rfl⟩
    have heval : p.EvalCoupled r (fun e e' => e' = e) (fun _ => True) (fun s t => t = s.rename r) ⟨names, declared⟩
        (p.rename r) ⟨names', declared.map r⟩ := by
      rintro e _ locals rfl -
      exact Pool.evalWith_rename h p _ locals
    exact halike.stepWith_inStep h heval (fun _ _ _ _ hl => hl) (fun _ _ => trivial) index

/-- Renamed pipelines run the same way, whether they come from a query or not. -/
theorem Pipeline.runWith_rename (h : names.Spells r names') (p : Pipeline) (captures : Store) :
    (p.rename r).runWith names' (captures.rename r) =
      (p.runWith names captures).map fun s => (s.1, s.2.rename r) := by
  have hsource : Coupled (fun a b => b.1 = a.1) (fun s t => t = s.rename r)
      (p.pool.evalWith ⟨names, []⟩ p.source .empty)
      ((p.rename r).pool.evalWith ⟨names', []⟩ (p.rename r).source .empty) :=
    (Pool.evalWith_rename h p.pool p.source .empty).mono fun a b hab => hab.1
  have hstep : ∀ s s' : Stage NodeId, s' = { s with input := s.input.rename r, output := s.output.rename r } →
      ∀ index v, InStep (fun s t => t = s.rename r) (s.step p.pool names index v)
        (s'.step (p.rename r).pool names' index v) := by
    rintro s _ rfl
    exact Stage.step_rename h p.pool s
  have hstages : List.Forall₂ (fun s s' : Stage NodeId =>
      s' = { s with input := s.input.rename r, output := s.output.rename r }) p.stages (p.rename r).stages :=
    List.forall₂_map_right_iff.2 (List.forall₂_same.2 fun _ _ => rfl)
  exact Computation.agree_map.1 (Pipeline.runWith_agree hsource hstep hstages rfl)

end Runs

/-- If the names of a query are renamed, without a clash and with their spellings, then building the chain and lowering
it report the same or give the same with the names renamed, and runs give the same results or fail alike and leave the
renamed captures. -/
theorem Query.interning_irrelevant {r : Renaming} {names names' : SymbolTable} (h : names.Spells r names') (q : Query)
    (policy : ScopePolicy) :
    (q.rename r).chain = q.chain.map (Chain.rename r) ∧
    (q.rename r).lower names' policy = (q.lower names policy).map (Pipeline.rename r) ∧
    ∀ p, q.lower names policy = .ok p → ∀ captures,
      (p.rename r).runWith names' (captures.rename r) =
        (p.runWith names captures).map fun s => (s.1, s.2.rename r) := by
  refine ⟨q.chain_rename r, q.lower_rename h policy, fun p _ captures => ?_⟩
  exact p.runWith_rename h captures

/-- A text that is also the name of a variable: `from x in ["x"] select n = x`. -/
def Query.labels : Query where
  pool :=
    { nodes := #[⟨.literal (.str ⟨1⟩), ⟨0, 1⟩⟩, ⟨.row .list ⟨0, 1⟩, ⟨2, 3⟩⟩, ⟨.ident ⟨1⟩, ⟨4, 5⟩⟩,
        ⟨.assign ⟨2⟩ ⟨2⟩, ⟨6, 7⟩⟩]
      lists := #[⟨0⟩] }
  clauses := [⟨.source, ⟨1⟩, .one ⟨1⟩, .str, ⟨0, 1⟩⟩, ⟨.select, ⟨3⟩, .none, .str, ⟨0, 1⟩⟩]

/-- The spellings of its names, if `x` came first. -/
def Query.labelNames : SymbolTable := ⟨#["", "x", "n"]⟩

/-- The spellings of its names, if `n` came first. -/
def Query.labelNamesSwapped : SymbolTable := ⟨#["", "n", "x"]⟩

/-- The two names exchanged. -/
def Renaming.swapped : Renaming := .ofPerm (Equiv.swap ⟨1⟩ ⟨2⟩) rfl

theorem Query.labels_interning_irrelevant :
    Query.labelNames.Spells Renaming.swapped Query.labelNamesSwapped ∧
    ∃ p, Query.labels.lower Query.labelNames .disallow = .ok p ∧
      p.runWith Query.labelNames (.ofList [(⟨2⟩, .null)]) = .ok ([.str "x"], .ofList [(⟨2⟩, .str "x")]) ∧
      (Query.labels.rename .swapped).lower Query.labelNamesSwapped .disallow = .ok (p.rename .swapped) ∧
      (p.rename .swapped).runWith Query.labelNamesSwapped (.ofList [(⟨1⟩, .null)]) =
        .ok ([.str "x"], .ofList [(⟨1⟩, .str "x")]) := by
  have hspells : Query.labelNames.Spells Renaming.swapped Query.labelNamesSwapped := by
    rintro ⟨i⟩
    rcases i with _ | _ | _ | i
    · rfl
    · rfl
    · rfl
    · have hfixed : Renaming.swapped ⟨i + 3⟩ = ⟨i + 3⟩ := Equiv.swap_apply_of_ne_of_ne (by simp) (by simp)
      rw [hfixed]
      rfl
  obtain ⟨p, hp⟩ : ∃ p, Query.labels.lower Query.labelNames .disallow = .ok p := ⟨_, rfl⟩
  have hrun : (Query.labels.lower Query.labelNames .disallow).toOption.map
      (fun p => p.runWith Query.labelNames (.ofList [(⟨2⟩, .null)])) =
        some (.ok ([.str "x"], .ofList [(⟨2⟩, .str "x")])) := by cbv
  rw [hp] at hrun
  have hrun : p.runWith Query.labelNames (.ofList [(⟨2⟩, .null)]) = .ok ([.str "x"], .ofList [(⟨2⟩, .str "x")]) :=
    Option.some.inj hrun
  obtain ⟨-, hlower, hruns⟩ := Query.interning_irrelevant hspells Query.labels .disallow
  rw [hp] at hlower
  have hswapped := hruns p hp (.ofList [(⟨2⟩, .null)])
  rw [hrun] at hswapped
  exact ⟨hspells, p, hp, hrun, hlower, hswapped⟩

end QueryPipeline
