import Mathlib
import QueryPipeline.Proofs.HandedOn
import QueryPipeline.Proofs.Siblings

/-!
# Types of pattern variables

A variable that tests bind is of its static type wherever a carrier takes it, unless its clause assigns to it
(`Chain.Makes.typesFit`).  In particular it is not null, so a success of a guard is never taken for a failure: what
reaches the stage behind a guard is passed on exactly if the guard's condition held (`Query.patterns_typed`).
-/

namespace QueryPipeline

private theorem Ty.ne_null_of_accepts {ty : Ty} {v : Value} (h : ty.accepts v = true) : v ≠ .null := by
  rintro rfl
  rw [Ty.accepts] at h
  cases h

/-! ### Variables that filters make -/

namespace Chain

variable {c : Chain} {f : Flow} {names : SymbolTable} {policy : ScopePolicy}
variable {before rest : List Link} {l : Link} {C : Carrier} {locals locals' : Store} {fd : Field} {u : Value}

/-- The value of a pattern variable is of the field's type, so it is not null. -/
def TypesFit (c : Chain) (fd : Field) (u : Value) : Prop :=
  ∀ bd, c.binding? fd.binding = some bd → bd.isPattern = true → fd.ty.accepts u = true ∧ u ≠ .null

/-- No filter assigns a variable of its own. -/
def OwnUnassigned (c : Chain) : Prop := ∀ l ∈ c.links, l.kind = .filter → ¬ l.AssignsOwn

instance (c : Chain) : Decidable c.OwnUnassigned :=
  inferInstanceAs (Decidable (∀ l ∈ c.links, l.kind = .filter → ¬ l.AssignsOwn))

private theorem At.range_not_pattern (hat : c.At before l rest) (hc : c.Formed) {b : BindingId} {bd : Binding}
    (hb : b ∈ l.ranges.ids) (hbd : c.binding? b = some bd) : bd.isPattern = false := by
  obtain ⟨bd', hbd', hkind, -⟩ := hat.range_id hc hb
  obtain rfl := Option.mem_unique hbd hbd'
  simp [Binding.isPattern, hkind]

theorem Makes.typesFit (hmakes : c.Makes names before l rest locals locals')
    (hent : c.Entered f names policy before l rest C) (hclashes : l.term.declared.clashes = [])
    (hassign : l.kind = .filter → ¬ l.AssignsOwn) (honly : HoldsOnly C locals)
    (hfd : fd ∈ (c.planned before l rest).fields) (hid : fd.binding ∈ l.ids)
    (hu : locals'.get? fd.name = some u) : c.TypesFit fd u := by
  intro bd hbd hpattern
  obtain ⟨-, bd', hbd', hname, hty, -⟩ := (hent.rules.carries_planned hent.place).sound fd hfd
  obtain rfl := Option.mem_unique hbd hbd'
  have hrange : fd.binding ∉ l.ranges.ids := by
    intro hrange
    rw [hent.place.range_not_pattern hent.rules.formed hrange hbd] at hpattern
    cases hpattern
  have hkind : l.kind = .filter := by
    by_contra hk
    exact hrange (hent.rules.planned_range hent.place hk hfd hid)
  cases hmakes with
  | filter hk he =>
    have hb : fd.binding ∈ l.patterns.ids := (List.mem_append.1 hid).resolve_left hrange
    rw [hname] at hu
    have haccepts := hent.own_typed hclashes (hassign hk) honly he hb hbd hu
    rw [hty]
    exact ⟨haccepts, Ty.ne_null_of_accepts haccepts⟩
  | range hk =>
    rw [hkind] at hk
    simp at hk
  | parts hk =>
    rw [hkind] at hk
    cases hk

/-- A filter that hands on one of its variables does not hand on a lone null. -/
theorem Makes.not_loneNull (hmakes : c.Makes names before l rest locals locals')
    (hent : c.Entered f names policy before l rest C) (hclashes : l.term.declared.clashes = [])
    (hassign : l.kind = .filter → ¬ l.AssignsOwn) (honly : HoldsOnly C locals)
    (hsome : ∃ b ∈ l.patterns.ids, c.ReadIn (l :: before) rest b) : ¬ (c.planned before l rest).LoneNull locals' := by
  rintro ⟨fd, hfields, hnull⟩
  have hown := hent.lone_own hsome hfields
  have hfd : fd ∈ (c.planned before l rest).fields := by simp [hfields]
  obtain ⟨bd, hbd, hkind, -⟩ := hent.place.pattern_id hent.rules.formed hown
  have hpattern : bd.isPattern = true := by simp [Binding.isPattern, hkind]
  have hid : fd.binding ∈ l.ids := List.mem_append_right _ hown
  exact (hmakes.typesFit hent hclashes hassign honly hfd hid hnull bd hbd hpattern).2 rfl

end Chain

/-! ### Guards and the stages behind them -/

/-- A guard decides its condition for a value, and gives out one value. -/
def Stage.Decides (p : Pool) (names : SymbolTable) (s : Stage NodeId) (v : Value) (captures : Store) (b : Bool)
    (w : Value) : Prop :=
  ∃ declared e locals locals' captures' index, s.body.declared? p = some declared ∧ s.body = .guard e ∧
    s.input.unpack? v = some locals ∧ p.holdsWith ⟨names, declared⟩ e locals captures = .ok ((b, locals'), captures') ∧
    s.step p names index v captures = .ok ([w], captures')

private theorem Stage.step_rejectAbsent {p : Pool} {names : SymbolTable} {index : Nat} {s : Stage NodeId} {C : Carrier}
    {encoding : Encoding} {w : Value} {o : Option Value} (hk : s.kind = .filter) (hb : s.body = .rejectAbsent)
    (hin : s.input = .outcome C encoding) (hread : encoding.read? w = some o) (captures : Store) :
    s.step p names index w captures = .ok (if o.isSome then [w] else [], captures) := by
  simp only [step, Body.declared?, Body.expr?, stepWith, hb, hk, hin, hread, Computation.ofOption_some, pure_bind]
  rfl

namespace Chain

variable {c : Chain} {f : Flow} {names : SymbolTable} {policy : ScopePolicy}
variable {before rest : List Link} {l : Link} {C : Carrier}

/-- Only behind a guard are there stages that turn failures down. -/
theorem Lowers.guarded {input : Shape} {stages : List (Stage NodeId)} (h : c.Lowers policy before input rest stages) :
    (∀ s ∈ stages.head?, s.body ≠ .rejectAbsent) ∧
      stages.IsChain fun s s' => s'.body = .rejectAbsent → ∃ e, s.body = .guard e := by
  induction h with
  | select => exact ⟨by simp [Link.selection], List.isChain_singleton _⟩
  | @step before rest input output l C stages more hin hC hblock hrest ih =>
    have hhere : stages ≠ [] ∧ (∀ s ∈ stages.head?, s.body ≠ .rejectAbsent) ∧
        stages.IsChain fun s s' => s'.body = .rejectAbsent → ∃ e, s.body = .guard e := by
      cases hblock <;> simp
    obtain ⟨hne, hhead, hchain⟩ := hhere
    refine ⟨fun s hs => hhead s ?_, List.isChain_append.2 ⟨hchain, ih.2, fun s hs s' hs' hbody => ?_⟩⟩
    · rwa [List.head?_append_of_ne_nil _ hne] at hs
    · exact absurd hbody (ih.1 s' hs')

/-- What a guard gives out is read as a success exactly if its condition holds. -/
theorem StageOf.decides {p : Pool} {s : Stage NodeId} {v w : Value} {captures captures' : Store} {e : NodeId}
    {index : Nat} {ws : List Value} (h : c.StageOf before l rest C s) (hent : c.Entered f names policy before l rest C)
    (hclashes : l.term.declared.clashes = []) (hassign : l.kind = .filter → ¬ l.AssignsOwn)
    (ht : p.term? l.expr = some l.term) (hguard : s.body = .guard e)
    (hstep : s.step p names index v captures = .ok (ws, captures')) (hw : w ∈ ws) :
    ∃ b D encoding o, s.Decides p names v captures b w ∧ s.output = .outcome D encoding ∧
      encoding.read? w = some o ∧ o.isSome = b := by
  have hstage := h
  cases h with
  | @guard input hin hk hsome =>
    have hdeclared : (Body.guard l.expr).declared? p = some l.term.boundNames := by
      simp only [Body.declared?, Body.expr?, ht, Option.map_some]
      rfl
    have hdecides {b : Bool} {locals locals' : Store} (hl : input.unpack? v = some locals)
        (he : p.holdsWith (l.setting names) l.expr locals captures = .ok ((b, locals'), captures'))
        (hone : ws = [w]) :
        Stage.Decides p names ⟨.map, input, .outcome (c.planned before l rest) (c.planned before l rest).encoding,
          .guard l.expr, before.length⟩ v captures b w := by
      rw [hone] at hstep
      exact ⟨_, _, _, _, _, _, hdeclared, rfl, hl, he, hstep⟩
    have hcases := hstep
    rw [Stage.step_of_term rfl ht] at hcases
    obtain ⟨locals, b, locals', hl, he, ⟨rfl, hws⟩ | ⟨rfl, u, hu, hws⟩⟩ := Stage.guard_eq_ok hcases
    · rw [hws] at hw
      obtain rfl := List.mem_singleton.1 hw
      exact ⟨false, _, _, none, hdecides hl he hws, rfl, Encoding.read?_write_none _, rfl⟩
    · rw [hws] at hw
      obtain rfl := List.mem_singleton.1 hw
      obtain ⟨-, -, locals₀, hl₀, hmakes⟩ := hstage.makes ht (.guard hdeclared rfl rfl hl he)
      have hlone := hmakes.not_loneNull hent hclashes hassign (Shape.unpack?_holdsOnly hin hl₀) hsome
      have hread := Carrier.read?_write_pack (c.planned before l rest).encoding hu fun h => absurd h hlone
      exact ⟨true, _, _, some u, hdecides hl he hws, rfl, hread, rfl⟩
  | project | predicate | rejectAbsent | unwrap | generate | extend | destructure => simp [Link.selection] at hguard

end Chain

namespace Query.Accepted

variable {q : Query} {names : SymbolTable} {policy : ScopePolicy} {c : Chain} {f : Flow} {first : Link}
variable {rest : List Link} {p : Pipeline} {s : Stage NodeId} {v w : Value} {captures captures' captures'' : Store}

private theorem grants_typesFit (h : q.Accepted names policy c f first rest p) (hassign : c.OwnUnassigned) :
    c.Grants f names policy c.TypesFit := by
  intro before l rest C locals locals' hent honly hmakes fd hfd hid u hu
  have hl := hent.place.mem_links
  exact hmakes.typesFit hent (Chain.flow_clashes h.flow hl) (hassign l hl) honly hfd hid hu

/-- The variable of the source is no pattern variable. -/
theorem source_typesFit (h : q.Accepted names policy c f first rest p) :
    ∀ fd ∈ p.sourceCarrier.fields, ∀ u, c.TypesFit fd u := by
  intro fd hfd u bd hbd hpattern
  have hat : c.At [] first rest := h.links
  obtain ⟨cl, -, -, hsource, -⟩ := h.rules.formed _ _ _ hat
  have hone := hat.ranges_one h.rules.formed (Or.inl (hsource.2 rfl))
  rw [h.carrier] at hfd
  have hbinding : fd.binding = ⟨first.ranges.start⟩ := by simpa using (Chain.mem_carrierOf.1 hfd).1
  have hrange : fd.binding ∈ first.ranges.ids := by rw [hbinding, hone]; simp
  rw [hat.range_not_pattern h.rules.formed hrange hbd] at hpattern
  cases hpattern

/-- Behind a guard a value is passed on exactly if the guard's condition held for it. -/
theorem passes_iff (h : q.Accepted names policy c f first rest p) (hfit : c.PatternsFit) (hassign : c.OwnUnassigned)
    (hv : p.Visits names captures s w captures') (hb : s.body = .rejectAbsent) :
    ∃ pre s₀ post v captures₀ b, p.stages = pre ++ s₀ :: s :: post ∧ p.Visits names captures s₀ v captures₀ ∧
      s₀.Decides p.pool names v captures₀ b w ∧
      ∀ index, s.step p.pool names index w captures' = .ok (if b then [w] else [], captures') := by
  obtain ⟨done, w₀, more, captures₁, out, captures₂, helements, hdone, hvisit⟩ := hv
  obtain ⟨hhead, hguarded⟩ := h.stages.guarded
  have hkind : s.kind = .filter := by
    obtain ⟨before, l, rest', C, -, hstage⟩ := h.entered hfit hvisit.mem
    cases hstage with
    | rejectAbsent => rfl
    | project | predicate | guard | unwrap | generate | extend | destructure => simp [Link.selection] at hb
  rcases hvisit.preceded with ⟨rest', hstages, -⟩ |
    ⟨pre, s₀, post, v, index₀, captures₀, ws, captures₃, hstages, hvisit₀, hstep, hw⟩
  · exact absurd hb (hhead s (by rw [hstages]; rfl))
  · have hchain := h.stages.isChain.2
    rw [hstages, List.isChain_append_cons_cons] at hguarded hchain
    obtain ⟨e, hguard⟩ := hguarded.2.1 hb
    obtain ⟨before, l, rest', C, hent, hstage⟩ := h.entered hfit hvisit₀.mem
    have hl := hent.place.mem_links
    obtain ⟨b, D, encoding, o, hdecides, hout, hread, hsome⟩ := hstage.decides hent
      (Chain.flow_clashes h.flow hl) (hassign l hl) (h.term hent.place) hguard hstep hw
    refine ⟨pre, s₀, post, v, captures₀, b, hstages,
      ⟨done, w₀, more, captures₁, out, captures₂, helements, hdone, hvisit₀⟩, hdecides, fun index => ?_⟩
    rw [Stage.step_rejectAbsent hkind hb (hchain.2.1.trans hout) hread, hsome]

end Query.Accepted

namespace Query

/-- One variable of two tests, a type test and a conversion: `from x in [1, "2", "n"]
where x is int i || parse x as i select i`. -/
def numbers : Query where
  pool :=
    { nodes := #[⟨.literal (.int 1), ⟨0, 1⟩⟩, ⟨.literal (.str ⟨3⟩), ⟨2, 3⟩⟩, ⟨.literal (.str ⟨4⟩), ⟨4, 5⟩⟩,
        ⟨.row .list ⟨0, 3⟩, ⟨6, 7⟩⟩, ⟨.ident ⟨1⟩, ⟨8, 9⟩⟩, ⟨.test (.hasType .int) ⟨4⟩ ⟨2⟩, ⟨10, 11⟩⟩,
        ⟨.ident ⟨1⟩, ⟨12, 13⟩⟩, ⟨.test .parsesInt ⟨6⟩ ⟨2⟩, ⟨14, 15⟩⟩, ⟨.connective .or ⟨5⟩ ⟨7⟩, ⟨16, 17⟩⟩,
        ⟨.ident ⟨2⟩, ⟨18, 19⟩⟩]
      lists := #[⟨0⟩, ⟨1⟩, ⟨2⟩] }
  clauses :=
    [⟨.source, ⟨3⟩, .one ⟨1⟩, .object, ⟨0, 1⟩⟩, ⟨.filter, ⟨8⟩, .none, .bool, ⟨0, 1⟩⟩,
      ⟨.select, ⟨9⟩, .none, .int, ⟨0, 1⟩⟩]

/-- The spellings of its names. -/
def numberNames : SymbolTable := ⟨#["", "x", "i", "2", "n"]⟩

end Query

end QueryPipeline
