import Mathlib
import QueryPipeline.Proofs.Visits

/-!
# Carried variables are bound

A run of an accepted query that finds a variable without a value finds it in one of two ways: the code around the
query does not have the variable, or it is a variable of the clause itself whose test has not bound it.  A variable of
an earlier clause always has a value where it is used, and so have the variables that a carrier is made of
(`Query.unbound_origin`).
-/

namespace QueryPipeline

open QueryPipeline.Computation (Meets)

/-! ### Memory at a place of an evaluation -/

namespace Term

variable {g : Setting}

/-- Up to a place of an evaluation, as after the whole of it, no variable and no capture is taken away. -/
structure Grows (m m' : Memory) : Prop where
  locals : ∀ x, m.locals.contains x = true → m'.locals.contains x = true
  captures : ∀ x, m.captures.contains x = true → m'.captures.contains x = true

theorem Grows.refl (m : Memory) : Grows m m := ⟨fun _ h => h, fun _ h => h⟩

theorem Grows.trans {m₁ m₂ m₃ : Memory} (h : Grows m₁ m₂) (h' : Grows m₂ m₃) : Grows m₁ m₃ :=
  ⟨fun x hx => h'.locals x (h.locals x hx), fun x hx => h'.captures x (h.captures x hx)⟩

private theorem eval_grows {t : Term} {m m' : Memory} {v : Value} (h : t.eval g m = .ok (v, m')) : Grows m m' :=
  ⟨fun _ hx => eval_locals_grow h hx, fun _ hx => eval_captures_grow h hx⟩

private theorem each_grows {ts : List Term} {m m' : Memory} {vs : List Value}
    (h : Eval.each (Term.eval g) ts m = .ok (vs, m')) : Grows m m' := by
  induction ts generalizing m vs with
  | nil =>
    obtain ⟨-, rfl⟩ := Prod.mk.inj (Except.ok.inj h)
    exact .refl m
  | cons t ts ih =>
    obtain ⟨v, m₁, hv, h⟩ := Computation.bind_eq_ok.1 h
    obtain ⟨ws, m₂, hws, h⟩ := Computation.bind_eq_ok.1 h
    obtain ⟨-, rfl⟩ := Prod.mk.inj (Except.ok.inj h)
    exact (eval_grows hv).trans (ih hws)

private theorem Enters.grows {t e : Term} {m m' : Memory} (h : Enters g t m e m') : Grows m m' := by
  cases h with
  | right h _ => exact eval_grows h
  | operatorRight h => exact eval_grows h
  | item h => exact each_grows h
  | left | operatorLeft | not | neg | test | assign | part => exact .refl m

private theorem Reaches.grows {t u : Term} {m m' : Memory} (h : Reaches g t m u m') : Grows m m' := by
  induction h with
  | here => exact .refl _
  | into h _ ih => exact h.grows.trans ih

private theorem Touches.grows {t u : Term} {m m' : Memory} (h : Touches g t m u m') : Grows m m' := by
  cases h with
  | read h => exact h.grows
  | assign h he => exact h.grows.trans (eval_grows he)

end Term

/-! ### Uses of earlier variables -/

/-- A use of an earlier variable finds it among the variables that come in. -/
theorem Chain.KeepsRules.earlier_held {c : Chain} {f : Flow} {names : SymbolTable} {policy : ScopePolicy}
    {before rest : List Link} {l : Link} {C : Carrier} {locals : Store} {t : Term} {x : Symbol} {a : Bool}
    {b : BindingId} (h : c.KeepsRules f names policy) (hat : c.At before l rest)
    (hC : c.Carries policy before (l :: rest) C) (hlocals : HoldsOnly C locals) (ht : t ∈ l.term.preorder)
    (hm : t.mention? = some (x, a)) (hr : c.resolve x l before = .earlier b) : locals.contains x = true := by
  obtain ⟨fd, hfd, -, hname⟩ := h.exists_field hat hC ht hm hr
  exact (hlocals x).2 ⟨fd, hfd, hname⟩

/-! ### Variables without a value -/

/-- The text is that of a name that a clause reads of the code around the query, which does not have it, or that a
clause uses as one of its own. -/
def Flow.Unbound (f : Flow) (names : SymbolTable) (captures : Store) (s : String) : Prop :=
  ∃ k x, names.spelling x = s ∧ ((f.Resolves k x false .outer ∧ captures.get? x = none) ∨
    ∃ a b, f.Resolves k x a (.sameClause b))

namespace Query.Accepted

variable {q : Query} {names : SymbolTable} {policy : ScopePolicy} {c : Chain} {f : Flow} {first : Link}
variable {rest : List Link} {p : Pipeline} {captures : Store}

private theorem grows_meets (h : q.Accepted names policy c f first rest p) {before rest' : List Link} {l : Link}
    (hat : c.At before l rest') {g : Setting} (hg : g.names = names) {locals : Store}
    (horigin : ∀ captures' x, (∀ y, captures.contains y = true → captures'.contains y = true) →
      l.term.Misses g ⟨locals, captures'⟩ x → f.Unbound names captures (names.spelling x)) :
    Meets (fun captures' => ∀ y, captures.contains y = true → captures'.contains y = true)
      (c.pool.evalWith g l.expr locals)
      (fun _ captures' => ∀ y, captures.contains y = true → captures'.contains y = true)
      (fun e => ∀ s, e = .error (.unbound s) → f.Unbound names captures s) := by
  have ht : c.pool.term? l.expr = some l.term := by rw [← h.pool]; exact h.term hat
  intro captures' hgrow
  refine ⟨fun r captures'' hr y hy => ?_, fun e he s hs => ?_⟩
  · exact Term.eval_captures_grow ((Pool.evalWith_eq_ok ht).1 hr) (hgrow y hy)
  · rcases Term.eval_error ((Pool.evalWith_eq_error ht).1 he) with hd | ⟨fault, hf, hvalue⟩ | ⟨x, hx, hmiss⟩
    · rw [hs] at hd; cases hd
    · rw [hs] at hf
      rw [← Failure.error.inj hf] at hvalue
      exact hvalue.elim
    · rw [hs] at hx
      have heq : s = names.spelling x := by
        rw [← hg]
        exact Fault.unbound.inj (Failure.error.inj hx)
      rw [heq]
      exact horigin captures' x hgrow hmiss

private theorem absent {captures captures' : Store} {m : Memory} {x : Symbol} {locals : Store}
    (hgrow : ∀ y, captures.contains y = true → captures'.contains y = true)
    (hm : Term.Grows ⟨locals, captures'⟩ m) (hx : m.captures.get? x = none) : captures.get? x = none := by
  refine Store.contains_eq_false.1 (Bool.eq_false_iff.2 fun hcontains => ?_)
  have := hm.captures x (hgrow x hcontains)
  rw [Store.contains_eq_false.2 hx] at this
  cases this

/-- A variable without a value in a clause after the source. -/
private theorem unbound_clause (h : q.Accepted names policy c f first rest p) (hfit : c.PatternsFit)
    {before rest' : List Link} {l : Link} {C : Carrier} {locals captures' : Store} {x : Symbol}
    (hat : c.At before l rest') (hC : c.Carries policy before (l :: rest') C) (hlocals : Chain.HoldsOnly C locals)
    (hgrow : ∀ y, captures.contains y = true → captures'.contains y = true)
    (hmiss : l.term.Misses (l.setting names) ⟨locals, captures'⟩ x) :
    f.Unbound names captures (names.spelling x) := by
  obtain ⟨u, a, m, htouch, hm, hnone, hcause⟩ := hmiss
  have hu := htouch.mem_preorder
  refine ⟨before.length, x, rfl, ?_⟩
  rcases hcause with hdeclared | ⟨rfl, hcapture⟩
  · obtain ⟨b, hb⟩ := Chain.resolve_of_bound hat h.rules.formed hfit (List.contains_iff_mem.1 hdeclared)
    exact Or.inr ⟨a, b, (h.rules.resolves_iff hat).2 ⟨⟨u, hu, hm⟩, hb⟩⟩
  · cases hr : c.resolve x l before with
    | sameClause b => exact Or.inr ⟨false, b, (h.rules.resolves_iff hat).2 ⟨⟨u, hu, hm⟩, hr⟩⟩
    | outer => exact Or.inl ⟨(h.rules.resolves_iff hat).2 ⟨⟨u, hu, hm⟩, hr⟩, absent hgrow htouch.grows hcapture⟩
    | earlier b =>
      -- it came in with the carrier, and no variable is lost on the way
      have hheld := htouch.grows.locals x (h.rules.earlier_held hat hC hlocals hu hm hr)
      rw [Store.contains_eq_false.2 hnone] at hheld
      cases hheld

/-- A variable without a value in the source. -/
private theorem unbound_source (h : q.Accepted names policy c f first rest p) {captures' : Store} {x : Symbol}
    (hgrow : ∀ y, captures.contains y = true → captures'.contains y = true)
    (hmiss : first.term.Misses ⟨names, []⟩ ⟨.empty, captures'⟩ x) : f.Unbound names captures (names.spelling x) := by
  have hat : c.At [] first rest := h.links
  obtain ⟨u, a, m, htouch, hm, -, hcause⟩ := hmiss
  have hu := htouch.mem_preorder
  refine ⟨0, x, rfl, ?_⟩
  rcases hcause with hdeclared | ⟨rfl, hcapture⟩
  · cases hdeclared
  · cases hr : c.resolve x first [] with
    | sameClause b => exact Or.inr ⟨false, b, (h.rules.resolves_iff hat).2 ⟨⟨u, hu, hm⟩, hr⟩⟩
    | outer => exact Or.inl ⟨(h.rules.resolves_iff hat).2 ⟨⟨u, hu, hm⟩, hr⟩, absent hgrow htouch.grows hcapture⟩
    | earlier b => cases Chain.resolve_eq_earlier hr

theorem unbound (h : q.Accepted names policy c f first rest p) (hfit : c.PatternsFit) {s : String}
    (hrun : p.runWith names captures = .error (.error (.unbound s))) : f.Unbound names captures s := by
  have hat : c.At [] first rest := h.links
  have hmeets := h.meets
    (Meets.of_pre (h.grows_meets hat rfl fun _ _ hgrow hmiss => h.unbound_source hgrow hmiss)
      fun s (hs : s = captures) y hy => by rw [hs]; exact hy)
    (fun before l rest' C locals hat _ hC hlocals =>
      h.grows_meets hat rfl fun _ _ hgrow hmiss => h.unbound_clause hfit hat hC hlocals hgrow hmiss)
    (fun fault hvalue s hs => by rw [Failure.error.inj hs] at hvalue; exact hvalue.elim)
  exact hmeets.2 _ hrun s rfl

/-- Where a run comes to a use of an earlier variable, it reads it and finds a value. -/
theorem earlier_read (h : q.Accepted names policy c f first rest p) {k : Nat} {g : Setting} {u : Term} {m : Memory}
    {x : Symbol} {a : Bool} {b : BindingId} (htouch : p.Touches names captures k g u m)
    (hm : u.mention? = some (x, a)) (hr : f.Resolves k x a (.earlier b)) :
    a = false ∧ ∃ v, Eval.read g x m = .ok (v, m) := by
  obtain ⟨e, t, m₀, heval, ht, htouch⟩ := htouch
  rcases h.evaluates heval with ⟨rfl, -, -, -⟩ | ⟨before, l, rest', C, hat, -, rfl, hC, -, rfl, hlocals⟩
  · -- nothing comes before the source
    have hat : c.At [] first rest := h.links
    cases Chain.resolve_eq_earlier ((h.rules.resolves_iff hat).1 hr).2
  · rw [h.term hat] at ht
    obtain rfl := Option.some.inj ht
    have hres := ((h.rules.resolves_iff hat).1 hr).2
    have hu := htouch.mem_preorder
    refine ⟨(h.rules.earlier hat hu hm hres).1, ?_⟩
    have hheld := htouch.grows.locals x (h.rules.earlier_held hat hC hlocals hu hm hres)
    obtain ⟨v, hv⟩ := Store.contains_iff.1 hheld
    exact ⟨v, Eval.read_eq_ok.2 ⟨by simp [Memory.find?, hv], rfl⟩⟩

theorem unique (h : q.Accepted names policy c f first rest p) {c' : Chain} {f' : Flow} (hc : q.chain = .ok c')
    (hf : c'.flow names = .ok f') : c' = c ∧ f' = f := by
  obtain rfl : c = c' := by
    have := h.chain
    rw [hc] at this
    exact (Except.ok.inj this).symm
  have := h.flow
  rw [hf] at this
  exact ⟨rfl, Except.ok.inj this⟩

end Query.Accepted

/-- If a run of an accepted query finds a variable without a value, some clause reads it of the code around the query,
which does not have it, or some clause uses it as one of its own.  A use of an earlier variable finds a value, and so
does the making of a carrier. -/
theorem Query.unbound_origin {q : Query} {names : SymbolTable} {policy : ScopePolicy} {p : Pipeline} {c : Chain}
    {f : Flow} (h : q.lower names policy = .ok p) (hc : q.chain = .ok c) (hf : c.flow names = .ok f)
    (hfit : c.PatternsFit) (captures : Store) :
    (∀ s, p.runWith names captures = .error (.error (.unbound s)) → ∃ k x, names.spelling x = s ∧
      ((f.Resolves k x false .outer ∧ captures.get? x = none) ∨ ∃ a b, f.Resolves k x a (.sameClause b))) ∧
    (∀ k g u m x a b, p.Touches names captures k g u m → u.mention? = some (x, a) →
      f.Resolves k x a (.earlier b) → a = false ∧ ∃ v, Eval.read g x m = .ok (v, m)) ∧
    ∀ C locals, p.Packs names captures C locals → ∃ v, C.pack names locals = .ok v := by
  obtain ⟨c', f', first, rest, hacc⟩ := lower_eq_ok h
  obtain ⟨rfl, rfl⟩ := hacc.unique hc hf
  refine ⟨fun s hrun => hacc.unbound hfit hrun, ?_, fun C locals hp => hacc.packs hp⟩
  intro k g u m x a b htouch hm hr
  exact hacc.earlier_read htouch hm hr

/-- Sums with a variable of the code around the query: `from x in [7] let z = x select z + y`. -/
def Query.sums : Query where
  pool :=
    { nodes := #[⟨.literal (.int 7), ⟨0, 1⟩⟩, ⟨.row .list ⟨0, 1⟩, ⟨2, 3⟩⟩, ⟨.ident ⟨1⟩, ⟨4, 5⟩⟩,
        ⟨.ident ⟨2⟩, ⟨6, 7⟩⟩, ⟨.ident ⟨3⟩, ⟨8, 9⟩⟩, ⟨.operator .add ⟨3⟩ ⟨4⟩, ⟨10, 11⟩⟩]
      lists := #[⟨0⟩] }
  clauses :=
    [⟨.source, ⟨1⟩, .one ⟨1⟩, .int, ⟨0, 1⟩⟩, ⟨.define, ⟨2⟩, .one ⟨2⟩, .int, ⟨0, 1⟩⟩,
      ⟨.select, ⟨5⟩, .none, .int, ⟨0, 1⟩⟩]

/-- The spellings of its names. -/
def Query.sumNames : SymbolTable := ⟨#["", "x", "z", "y"]⟩

/-- The run fails at `y`.  Before that, the second clause reads `x`, which the source has given a value, and a carrier
is made of `z`. -/
theorem Query.sums_unbound_origin : ∃ p c f, Query.sums.lower Query.sumNames .disallow = .ok p ∧
    Query.sums.chain = .ok c ∧ c.flow Query.sumNames = .ok f ∧ c.PatternsFit ∧
    (p.runWith Query.sumNames .empty = .error (.error (.unbound "y")) ∧
      ∃ k x, Query.sumNames.spelling x = "y" ∧ ((f.Resolves k x false .outer ∧ Store.empty.get? x = none) ∨
        ∃ a b, f.Resolves k x a (.sameClause b))) ∧
    (∃ g u m, p.Touches Query.sumNames .empty 1 g u m ∧ u.mention? = some (⟨1⟩, false) ∧
      f.Resolves 1 ⟨1⟩ false (.earlier ⟨0⟩) ∧ ∃ v, Eval.read g ⟨1⟩ m = .ok (v, m)) ∧
    ∃ C locals, p.Packs Query.sumNames .empty C locals ∧ C.fields.map Field.name = [⟨2⟩] ∧
      ∃ v, C.pack Query.sumNames locals = .ok v := by
  obtain ⟨p, hp⟩ : ∃ p, Query.sums.lower Query.sumNames .disallow = .ok p := ⟨_, rfl⟩
  obtain ⟨c, f, first, rest, hacc⟩ := Query.lower_eq_ok hp
  have hrun : (Query.sums.lower Query.sumNames .disallow).toOption.map
      (fun p => p.runWith Query.sumNames .empty) = some (.error (.error (.unbound "y"))) := by cbv
  have hfit : Query.sums.chain.toOption.map (fun c => decide c.PatternsFit) = some true := by cbv
  have huses : (Query.sums.chain.toOption.bind fun c => (c.flow Query.sumNames).toOption).map Flow.uses =
      some [[], [⟨⟨1⟩, .earlier ⟨0⟩, ⟨4, 5⟩, false, false⟩],
        [⟨⟨2⟩, .earlier ⟨1⟩, ⟨6, 7⟩, false, false⟩, ⟨⟨3⟩, .outer, ⟨8, 9⟩, false, false⟩]] := by cbv
  have helements : (Query.sums.lower Query.sumNames .disallow).toOption.map
      (fun p => p.elements Query.sumNames .empty) = some (.ok ([.int 7], .empty)) := by cbv
  have hstage : (Query.sums.lower Query.sumNames .disallow).toOption.map (fun p => (p.pool, p.stages.head?)) =
      some (Query.sums.pool, some ⟨.map, .carrier ⟨0, [⟨⟨0⟩, ⟨1⟩, .int⟩]⟩, .carrier ⟨1, [⟨⟨1⟩, ⟨2⟩, .int⟩]⟩,
        .extend [(⟨1⟩, ⟨2⟩)], 1⟩) := by cbv
  rw [hp] at hrun helements hstage
  rw [hacc.chain] at hfit huses
  simp only [Except.toOption, Option.bind_some, hacc.flow, Option.map_some, Option.some.injEq] at huses
  have hfit : c.PatternsFit := of_decide_eq_true (Option.some.inj hfit)
  obtain ⟨hpool, hhead⟩ := Prod.mk.inj (Option.some.inj hstage)
  obtain ⟨more, hstages⟩ := List.head?_eq_some_iff.1 hhead
  obtain ⟨horigin, hread, hpack⟩ := Query.unbound_origin hp hacc.chain hacc.flow hfit .empty
  have hvisit {s : Stage NodeId} (hs : p.stages = s :: more) : p.Visits Query.sumNames .empty s (.int 7) .empty := by
    refine ⟨[], .int 7, [], .empty, [], .empty, Option.some.inj helements, rfl, ?_⟩
    rw [hs]
    exact .here
  have hdeclared : (Body.extend [(⟨1⟩, ⟨2⟩)]).declared? p.pool = some [] := by
    rw [hpool]
    cbv
  have hresolves : f.Resolves 1 ⟨1⟩ false (.earlier ⟨0⟩) := by
    unfold Flow.Resolves Flow.usesIn
    rw [huses]
    exact ⟨_, List.mem_singleton.2 rfl, rfl, rfl, rfl⟩
  have htouch : p.Touches Query.sumNames .empty 1 ⟨Query.sumNames, []⟩ (.ident ⟨⟨2⟩, ⟨4, 5⟩⟩ ⟨1⟩)
      ⟨.ofList [(⟨1⟩, .int 7)], .empty⟩ := by
    have hterm : p.pool.term? ⟨2⟩ = some (.ident ⟨⟨2⟩, ⟨4, 5⟩⟩ ⟨1⟩) := by
      rw [hpool]
      cbv
    exact ⟨⟨2⟩, _, _, .stage (hvisit hstages) (.first hdeclared rfl rfl), hterm, .read .here⟩
  have hextend : Carrier.extend ⟨1, [⟨⟨1⟩, ⟨2⟩, .int⟩]⟩ p.pool ⟨Query.sumNames, []⟩ (.ofList [(⟨1⟩, .int 7)])
      [(⟨1⟩, ⟨2⟩)] .empty = .ok (.ofList [(⟨1⟩, .int 7), (⟨2⟩, .int 7)], .empty) := by
    rw [hpool]
    cbv
  have hmade : p.Packs Query.sumNames .empty ⟨1, [⟨⟨1⟩, ⟨2⟩, .int⟩]⟩ (.ofList [(⟨1⟩, .int 7), (⟨2⟩, .int 7)]) :=
    ⟨_, _, _, hvisit hstages, .extend hdeclared rfl rfl rfl hextend⟩
  refine ⟨p, c, f, hp, hacc.chain, hacc.flow, hfit, ⟨Option.some.inj hrun, horigin "y" (Option.some.inj hrun)⟩, ?_, ?_⟩
  · exact ⟨_, _, _, htouch, rfl, hresolves, (hread _ _ _ _ _ _ _ htouch rfl hresolves).2⟩
  · exact ⟨_, _, hmade, rfl, hpack _ _ hmade⟩

end QueryPipeline
