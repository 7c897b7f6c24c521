import Mathlib
import QueryPipeline.Proofs.BoundVariables
import QueryPipeline.Proofs.Coupling

/-!
# Only outer names matter

The run of an accepted query depends on the captures only through the names that some clause uses as variables of the
code around the query, and changes only those (`Query.captures_noninterference`).

Two runs are taken side by side.  In each clause a name without a value at hand is one that a test of the clause binds,
and then it never means a capture, or it is used as an outer one.
-/

namespace QueryPipeline

open QueryPipeline.Computation (InStep Coupled)

/-- The captures of two runs at one moment, where they started with `start₁` and `start₂`: the same on the names with
`U`, and as at the start on all others. -/
structure Store.Together (U : Symbol → Prop) (start₁ start₂ s₁ s₂ : Store) : Prop where
  same : ∀ x, U x → s₁.get? x = s₂.get? x
  left : ∀ x, ¬ U x → s₁.get? x = start₁.get? x
  right : ∀ x, ¬ U x → s₂.get? x = start₂.get? x

theorem Store.Together.insert {U : Symbol → Prop} {start₁ start₂ s₁ s₂ : Store} (h : Together U start₁ start₂ s₁ s₂)
    {x : Symbol} (hx : U x) (v : Value) : Together U start₁ start₂ (s₁.insert x v) (s₂.insert x v) := by
  have hother : ∀ s : Store, ∀ y, ¬ U y → (s.insert x v).get? y = s.get? y := by
    intro s y hy
    have hne : x ≠ y := fun heq => hy (heq ▸ hx)
    rw [Store.get?_insert, if_neg hne]
  refine ⟨fun y hy => ?_, fun y hy => ?_, fun y hy => ?_⟩
  · rw [Store.get?_insert, Store.get?_insert, h.same y hy]
  · rw [hother s₁ y hy, h.left y hy]
  · rw [hother s₂ y hy, h.right y hy]

/-! ### Expressions -/

section Eval

variable {U L : Symbol → Prop} {start₁ start₂ : Store} {g : Setting} {t : Term}

/-- Memories of two runs at one moment: the same variables, those with `L` among them, and captures that go
together. -/
structure Memory.Together (U L : Symbol → Prop) (start₁ start₂ : Store) (m₁ m₂ : Memory) : Prop where
  locals : m₂.locals = m₁.locals
  held : ∀ x, L x → m₁.locals.contains x = true
  captures : Store.Together U start₁ start₂ m₁.captures m₂.captures

private theorem Memory.Together.insert {m₁ m₂ : Memory} (h : Memory.Together U L start₁ start₂ m₁ m₂) (x : Symbol)
    (v : Value) : Memory.Together U L start₁ start₂ { m₁ with locals := m₁.locals.insert x v }
      { m₂ with locals := m₂.locals.insert x v } := by
  refine ⟨?_, fun y hy => ?_, h.captures⟩
  · simp only [h.locals]
  · simp [Store.contains_insert, h.held y hy]

private theorem read_inStep {x : Symbol} (hx : L x ∨ g.declared.contains x = true ∨ U x) :
    InStep (Memory.Together U L start₁ start₂) (Eval.read g x) (Eval.read g x) := by
  intro m₁ m₂ h
  have hfind : m₂.find? g x = m₁.find? g x := by
    unfold Memory.find?
    rw [h.locals]
    cases hget : m₁.locals.get? x with
    | some v => rfl
    | none =>
      have hmissing : m₁.locals.contains x = false := Store.contains_eq_false.2 hget
      rcases hx with hx | hx | hx
      · rw [h.held x hx] at hmissing
        cases hmissing
      · rw [if_pos hx, if_pos hx]
      · rw [h.captures.same x hx]
  show Computation.Agree _ ((Computation.ofOption (g.unbound x) (m₁.find? g x) : Eval Value) m₁)
    ((Computation.ofOption (g.unbound x) (m₂.find? g x) : Eval Value) m₂)
  rw [hfind]
  exact InStep.ofOption _ _ m₁ m₂ h

private theorem store_inStep {x : Symbol} (hx : L x ∨ g.declared.contains x = true ∨ U x) (v : Value) :
    InStep (Memory.Together U L start₁ start₂) (Eval.store g x v) (Eval.store g x v) := by
  intro m₁ m₂ h
  rw [Eval.store_apply, Eval.store_apply, h.locals]
  cases hlocal : m₁.locals.contains x with
  | true =>
    have hinsert := h.insert x v
    rw [h.locals] at hinsert
    exact .ok hinsert
  | false =>
    cases hdeclared : g.declared.contains x with
    | true => exact .error _
    | false =>
      -- the name is at hand nowhere, so it is an outer one
      have hU : U x := by
        rcases hx with hx | hx | hx
        · rw [h.held x hx] at hlocal
          cases hlocal
        · rw [hx] at hdeclared
          cases hdeclared
        · exact hx
      exact .ok ⟨rfl, h.held, h.captures.insert hU v⟩

/-- An expression goes in step in two runs, if each name that it mentions is at hand, bound by a test, or outer. -/
private theorem Term.eval_inStep
    (h : ∀ u ∈ t.preorder, ∀ x a, u.mention? = some (x, a) → L x ∨ g.declared.contains x = true ∨ U x) :
    InStep (Memory.Together U L start₁ start₂) (t.eval g) (t.eval g) := by
  refine Term.evalVia_inStep g.names t ⟨fun u hu x hx => ?_, fun u hu x hx v => ?_, fun o q e x _ v _ => ?_⟩
  · exact read_inStep (h u hu x false hx)
  · exact store_inStep (h u hu x true hx) v
  · exact fun m₁ m₂ hm => .ok (hm.insert x v)

end Eval

/-! ### Clauses -/

/-- Some clause uses the name as a variable of the code around the query. -/
def Flow.UsesOuter (f : Flow) (x : Symbol) : Prop := ∃ k a, f.Resolves k x a .outer

namespace Query.Accepted

variable {q : Query} {names : SymbolTable} {policy : ScopePolicy} {c : Chain} {f : Flow} {first : Link}
variable {rest : List Link} {p : Pipeline} {start₁ start₂ : Store}

private theorem mention_clause (h : q.Accepted names policy c f first rest p) {before rest' : List Link} {l : Link}
    {C : Carrier} (hat : c.At before l rest') (hC : c.Carries policy before (l :: rest') C) {u : Term}
    (hu : u ∈ l.term.preorder) {x : Symbol} {a : Bool} (hm : u.mention? = some (x, a)) :
    (∃ fd ∈ C.fields, fd.name = x) ∨ (l.setting names).declared.contains x = true ∨ f.UsesOuter x := by
  cases hr : c.resolve x l before with
  | sameClause b => exact Or.inr (Or.inl (hat.own_declared h.rules.formed names hr))
  | earlier b =>
    obtain ⟨fd, hfd, -, hname⟩ := h.rules.exists_field hat hC hu hm hr
    exact Or.inl ⟨fd, hfd, hname⟩
  | outer => exact Or.inr (Or.inr ⟨before.length, a, (h.rules.resolves_iff hat).2 ⟨⟨u, hu, hm⟩, hr⟩⟩)

private theorem mention_source (h : q.Accepted names policy c f first rest p)
    (hsource : ∀ b ∈ c.bindings, b.clause = 0 → b.isPattern = false) {u : Term} (hu : u ∈ first.term.preorder)
    {x : Symbol} {a : Bool} (hm : u.mention? = some (x, a)) : f.UsesOuter x := by
  have hat : c.At [] first rest := h.links
  have hr : c.resolve x first [] = .outer := by
    cases hr : c.resolve x first [] with
    | outer => rfl
    | earlier b => cases Chain.resolve_eq_earlier hr
    | sameClause b =>
      obtain ⟨hb, -⟩ := Chain.resolve_eq_sameClause hr
      obtain ⟨bd, hbd, hkind, hclause, -⟩ := hat.pattern_id h.rules.formed hb
      have hrange := hsource bd (Array.mem_of_getElem? hbd) hclause
      rw [Binding.isPattern, hkind] at hrange
      cases hrange
  exact ⟨0, a, (h.rules.resolves_iff hat).2 ⟨⟨u, hu, hm⟩, hr⟩⟩

/-- Evaluating the expression of a clause is coupled in two runs, with the variables that come in. -/
private theorem evalCoupled_clause (h : q.Accepted names policy c f first rest p) {before rest' : List Link} {l : Link}
    {C : Carrier} (hat : c.At before l rest') (hC : c.Carries policy before (l :: rest') C) :
    p.pool.EvalCoupled .refl (fun e e' => e = l.expr ∧ e' = l.expr)
      (fun locals => ∀ x, (∃ fd ∈ C.fields, fd.name = x) → locals.contains x = true)
      (Store.Together f.UsesOuter start₁ start₂) (l.setting names) p.pool (l.setting names) := by
  rintro e e' locals ⟨rfl, rfl⟩ hl
  have hstep : InStep (Memory.Together f.UsesOuter (fun x => ∃ fd ∈ C.fields, fd.name = x) start₁ start₂)
      (p.pool.eval (l.setting names) l.expr) (p.pool.eval (l.setting names) l.expr) := by
    rw [Pool.eval_of_term (h.term hat)]
    exact Term.eval_inStep fun u hu x a hm => h.mention_clause hat hC hu hm
  rw [Store.rename_refl]
  refine Pool.evalWith_coupled (fun a b => b = a.rename .refl ∧
    ∀ x, (∃ fd ∈ C.fields, fd.name = x) → a.contains x = true) hstep (fun s t hst => ⟨rfl, hl, hst⟩) fun m m' hm => ?_
  exact ⟨⟨by rw [hm.locals, Store.rename_refl], hm.held⟩, hm.captures⟩

private theorem step_inStep (h : q.Accepted names policy c f first rest p) {s : Stage NodeId} (hs : s ∈ p.stages)
    (index : Nat) (v : Value) :
    InStep (Store.Together f.UsesOuter start₁ start₂) (s.step p.pool names index v) (s.step p.pool names index v) := by
  obtain ⟨before, l, rest', C, hat, -, hC, hof⟩ := h.stages.stageOf (by rw [h.links]; rfl) (by simp) hs
  have hnames : names.Spells .refl names := .refl names
  have hsame : ∀ {E : NodeId → NodeId → Prop}, (∀ e ∈ s.body.exprs, E e e) → s.Alike .refl E s :=
    fun hE => ⟨rfl, (Shape.rename_refl _).symm, (Shape.rename_refl _).symm, .refl hE⟩
  rcases hof.exprs with ⟨hexpr, hin, hexprs⟩ | hnone
  · rw [Stage.step_of_term hexpr (h.term hat)]
    have hs : s.Alike .refl (fun e e' => e = l.expr ∧ e' = l.expr) s := hsame fun e he => ⟨hexprs e he, hexprs e he⟩
    refine hs.stepWith_inStep hnames (h.evalCoupled_clause hat hC) ?_ ?_ index
    · exact fun C locals id v hl x hx => Carrier.addTo_grow (hl x hx)
    · exact fun locals hl x hx => (Shape.unpack?_holdsOnly hin hl x).2 hx
  · -- the stage evaluates nothing
    have hstep : s.step p.pool names index v = s.stepWith p.pool ⟨names, []⟩ index v := by
      rw [Stage.step, Body.declared?, hnone.1]
    have heval : p.pool.EvalCoupled .refl (fun _ _ => False) (fun _ => True)
        (Store.Together f.UsesOuter start₁ start₂) ⟨names, []⟩ p.pool ⟨names, []⟩ := fun _ _ _ he => he.elim
    have hexprs : ∀ e ∈ s.body.exprs, False := by
      rw [hnone.2]
      simp
    rw [hstep]
    exact (hsame hexprs).stepWith_inStep hnames heval (fun _ _ _ _ hl => hl) (fun _ _ => trivial) index

private theorem source_coupled (h : q.Accepted names policy c f first rest p)
    (hsource : ∀ b ∈ c.bindings, b.clause = 0 → b.isPattern = false) :
    Coupled (fun a b => b.1 = a.1) (Store.Together f.UsesOuter start₁ start₂)
      (p.pool.evalWith ⟨names, []⟩ p.source .empty) (p.pool.evalWith ⟨names, []⟩ p.source .empty) := by
  have hstep : InStep (Memory.Together f.UsesOuter (fun _ => False) start₁ start₂)
      (p.pool.eval ⟨names, []⟩ p.source) (p.pool.eval ⟨names, []⟩ p.source) := by
    have hat : c.At [] first rest := h.links
    rw [h.source, Pool.eval_of_term (h.term hat)]
    exact Term.eval_inStep fun u hu x a hm => Or.inr (Or.inr (h.mention_source hsource hu hm))
  refine Coupled.mono (Pool.evalWith_coupled (fun a b => b = a) hstep ?_ ?_) fun a b hab => hab.1
  · exact fun s t hst => ⟨rfl, fun _ hx => hx.elim, hst⟩
  · exact fun m m' hm => ⟨hm.locals, hm.captures⟩

end Query.Accepted

/-- Runs of an accepted query whose source binds no variable in a test give the same results, or fail alike, if they
start with the same captures for the names that are used as outer ones.  They leave the same captures for these names,
and all other captures as they were. -/
theorem Query.captures_noninterference {q : Query} {names : SymbolTable} {policy : ScopePolicy} {p : Pipeline}
    {c : Chain} {f : Flow} (h : q.lower names policy = .ok p) (hc : q.chain = .ok c) (hf : c.flow names = .ok f)
    (hsource : ∀ b ∈ c.bindings, b.clause = 0 → b.isPattern = false) {captures₁ captures₂ : Store}
    (hsame : ∀ x, f.UsesOuter x → captures₁.get? x = captures₂.get? x) :
    (∃ e, p.runWith names captures₁ = .error e ∧ p.runWith names captures₂ = .error e) ∨
    ∃ out s₁ s₂, p.runWith names captures₁ = .ok (out, s₁) ∧ p.runWith names captures₂ = .ok (out, s₂) ∧
      (∀ x, f.UsesOuter x → s₁.get? x = s₂.get? x) ∧
      ∀ x, ¬ f.UsesOuter x → s₁.get? x = captures₁.get? x ∧ s₂.get? x = captures₂.get? x := by
  obtain ⟨c', f', first, rest, hacc⟩ := lower_eq_ok h
  obtain ⟨rfl, rfl⟩ := hacc.unique hc hf
  have hstart : Store.Together f.UsesOuter captures₁ captures₂ captures₁ captures₂ :=
    ⟨hsame, fun _ _ => rfl, fun _ _ => rfl⟩
  have hstep : ∀ s s' : Stage NodeId, s' = s ∧ s ∈ p.stages → ∀ index v,
      InStep (Store.Together f.UsesOuter captures₁ captures₂) (s.step p.pool names index v)
        (s'.step p.pool names index v) := by
    rintro s _ ⟨rfl, hs⟩
    exact hacc.step_inStep hs
  have hstages : List.Forall₂ (fun s s' => s' = s ∧ s ∈ p.stages) p.stages p.stages :=
    List.forall₂_same.2 fun s hs => ⟨rfl, hs⟩
  have hruns := Pipeline.runWith_agree (hacc.source_coupled hsource) hstep hstages hstart
  generalize p.runWith names captures₁ = run₁ at hruns
  generalize p.runWith names captures₂ = run₂ at hruns
  cases hruns with
  | error e => exact Or.inl ⟨e, rfl, rfl⟩
  | @ok out s₁ s₂ htogether =>
    refine Or.inr ⟨out, s₁, s₂, rfl, rfl, htogether.same, fun x hx => ?_⟩
    exact ⟨htogether.left x hx, htogether.right x hx⟩

/-- A running total kept outside: `from x in [7, 8] where x is int i select n = n + i`. -/
def Query.totals : Query where
  pool :=
    { nodes := #[⟨.literal (.int 7), ⟨0, 1⟩⟩, ⟨.literal (.int 8), ⟨2, 3⟩⟩, ⟨.row .list ⟨0, 2⟩, ⟨4, 5⟩⟩,
        ⟨.ident ⟨1⟩, ⟨6, 7⟩⟩, ⟨.test (.hasType .int) ⟨3⟩ ⟨2⟩, ⟨8, 9⟩⟩, ⟨.ident ⟨3⟩, ⟨10, 11⟩⟩,
        ⟨.ident ⟨2⟩, ⟨12, 13⟩⟩, ⟨.operator .add ⟨5⟩ ⟨6⟩, ⟨14, 15⟩⟩, ⟨.assign ⟨3⟩ ⟨7⟩, ⟨16, 17⟩⟩]
      lists := #[⟨0⟩, ⟨1⟩] }
  clauses :=
    [⟨.source, ⟨2⟩, .one ⟨1⟩, .object, ⟨0, 1⟩⟩, ⟨.filter, ⟨4⟩, .none, .bool, ⟨0, 1⟩⟩,
      ⟨.select, ⟨8⟩, .none, .int, ⟨0, 1⟩⟩]

/-- The spellings of its names. -/
def Query.totalNames : SymbolTable := ⟨#["", "x", "i", "n"]⟩

/-- Only `n` is used as an outer name, so a capture called `i` does not matter. -/
theorem Query.totals_noninterference : ∃ p c f, Query.totals.lower Query.totalNames .unique = .ok p ∧
    Query.totals.chain = .ok c ∧ c.flow Query.totalNames = .ok f ∧
    (∀ b ∈ c.bindings, b.clause = 0 → b.isPattern = false) ∧ (∀ x, f.UsesOuter x ↔ x = ⟨3⟩) ∧
    p.runWith Query.totalNames (.ofList [(⟨3⟩, .int 1)]) = .ok ([.int 8, .int 16], .ofList [(⟨3⟩, .int 16)]) ∧
    ∃ s, p.runWith Query.totalNames (.ofList [(⟨2⟩, .int 5), (⟨3⟩, .int 1)]) = .ok ([.int 8, .int 16], s) ∧
      s.get? ⟨3⟩ = some (.int 16) ∧ s.get? ⟨2⟩ = some (.int 5) := by
  obtain ⟨p, hp⟩ : ∃ p, Query.totals.lower Query.totalNames .unique = .ok p := ⟨_, rfl⟩
  have hrun : (Query.totals.lower Query.totalNames .unique).toOption.map
      (fun p => p.runWith Query.totalNames (.ofList [(⟨3⟩, .int 1)])) =
        some (.ok ([.int 8, .int 16], .ofList [(⟨3⟩, .int 16)])) := by cbv
  rw [hp] at hrun
  have hrun : p.runWith Query.totalNames (.ofList [(⟨3⟩, .int 1)]) =
      .ok ([.int 8, .int 16], .ofList [(⟨3⟩, .int 16)]) := Option.some.inj hrun
  obtain ⟨c, f, first, rest, hacc⟩ := Query.lower_eq_ok hp
  have huses : (Query.totals.chain.toOption.bind fun c => (c.flow Query.totalNames).toOption).map Flow.uses =
      some [[], [⟨⟨1⟩, .earlier ⟨0⟩, ⟨6, 7⟩, false, false⟩], [⟨⟨3⟩, .outer, ⟨16, 17⟩, true, false⟩,
        ⟨⟨3⟩, .outer, ⟨10, 11⟩, false, false⟩, ⟨⟨2⟩, .earlier ⟨1⟩, ⟨12, 13⟩, false, false⟩]] := by cbv
  have hbindings : Query.totals.chain.toOption.map (fun c => c.bindings) =
      some #[⟨⟨1⟩, .object, .range, 0, ⟨0, 1⟩⟩, ⟨⟨2⟩, .int, .pattern .whenTrue, 1, ⟨8, 9⟩⟩] := by cbv
  rw [hacc.chain] at huses hbindings
  simp only [Except.toOption, Option.bind_some, hacc.flow, Option.map_some, Option.some.injEq] at huses hbindings
  have hsource : ∀ b ∈ c.bindings, b.clause = 0 → b.isPattern = false := by
    rw [hbindings]
    decide
  have houter : ∀ x, f.UsesOuter x ↔ x = ⟨3⟩ := by
    intro x
    unfold Flow.UsesOuter Flow.Resolves Flow.usesIn
    rw [huses]
    constructor
    · rintro ⟨k, a, u, hu, rfl, -, hr⟩
      rcases k with _ | _ | _ | k
      · cases hu
      · obtain rfl := List.mem_singleton.1 hu
        cases hr
      · simp only [List.getElem?_cons_succ, List.getElem?_cons_zero, Option.getD_some, List.mem_cons,
          List.not_mem_nil, or_false] at hu
        rcases hu with rfl | rfl | rfl
        · rfl
        · rfl
        · cases hr
      · cases hu
    · rintro rfl
      exact ⟨2, true, _, List.mem_cons_self, rfl, rfl, rfl⟩
  refine ⟨p, c, f, hp, hacc.chain, hacc.flow, hsource, houter, hrun, ?_⟩
  have hsame : ∀ x, f.UsesOuter x → (Store.ofList [(⟨3⟩, .int 1)]).get? x =
      (Store.ofList [(⟨2⟩, .int 5), (⟨3⟩, .int 1)]).get? x := by
    intro x hx
    rw [(houter x).1 hx]
    rfl
  rcases Query.captures_noninterference hp hacc.chain hacc.flow hsource hsame with
    ⟨e, he, -⟩ | ⟨out, s₁, s₂, hrun₁, hrun₂, hused, hunused⟩
  · rw [hrun] at he
    cases he
  · rw [hrun] at hrun₁
    obtain ⟨rfl, rfl⟩ := Prod.mk.inj (Except.ok.inj hrun₁)
    refine ⟨s₂, hrun₂, ?_, ?_⟩
    · rw [← hused ⟨3⟩ ((houter ⟨3⟩).2 rfl)]
      rfl
    · have hi : ¬ f.UsesOuter ⟨2⟩ := fun h => absurd ((houter ⟨2⟩).1 h) (by decide)
      rw [(hunused ⟨2⟩ hi).2]
      rfl

end QueryPipeline
