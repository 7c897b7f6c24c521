import QueryPipeline.Proofs.Stages

/-!
# What a run comes to

A run visits stages, each with a value and the captures at that moment (`Pipeline.Visits`).  There an expression is
evaluated from a memory, comes to variables that it reads or assigns (`Pipeline.Touches`), and the carrier that goes
out is made (`Pipeline.Packs`).  `Stage.Gives` says what a stage gives out for a value.

In the pipeline of an accepted query every such event belongs to a clause: the expression is the clause's, its
setting has the names that the clause's tests bind, and the variables at hand are those of the carrier that comes in
(`Query.Accepted.evaluates`).  The carrier that goes out is made of the variables that come in and those that the
clause adds (`Chain.Makes`).
-/

namespace QueryPipeline

/-! ### Events -/

/-- The stages from place `index` on, run on a value, come to a stage with a value and captures.  The values before
have gone through all the stages by then. -/
inductive Run.Visits (p : Pool) (names : SymbolTable) :
    Nat → List (Stage NodeId) → Value → Store → Stage NodeId → Value → Store → Prop
  | here {index s rest v captures} : Visits p names index (s :: rest) v captures s v captures
  | later {index s rest v captures done w more captures₁ out captures₂ s' v' captures'}
    (hs : s.step p names index v captures = .ok (done ++ w :: more, captures₁))
    (hd : Run.forEach (Run.through p names (index + 1) rest) done captures₁ = .ok (out, captures₂))
    (h : Visits p names (index + 1) rest w captures₂ s' v' captures') :
    Visits p names index (s :: rest) v captures s' v' captures'

/-- A stage with a value and captures evaluates an expression from a memory. -/
inductive Stage.Evaluates (p : Pool) (names : SymbolTable) (s : Stage NodeId) (v : Value) (captures : Store) :
    Setting → NodeId → Memory → Prop
  | first {declared e locals} (hd : s.body.declared? p = some declared) (he : s.body.expr? = some e)
    (hl : s.input.unpack? v = some locals) : Evaluates p names s v captures ⟨names, declared⟩ e ⟨locals, captures⟩
  | next {declared done id e rest C locals locals' captures'} (hd : s.body.declared? p = some declared)
    (hb : s.body = .extend (done ++ (id, e) :: rest)) (hC : s.output.carrier? = some C)
    (hl : s.input.unpack? v = some locals)
    (hx : C.extend p ⟨names, declared⟩ locals done captures = .ok (locals', captures')) :
    Evaluates p names s v captures ⟨names, declared⟩ e ⟨locals', captures'⟩

/-- A stage with a value and captures makes a carrier of variables. -/
inductive Stage.Packs (p : Pool) (names : SymbolTable) (s : Stage NodeId) (v : Value) (captures : Store) :
    Carrier → Store → Prop
  | guard {declared e C encoding locals locals' captures'} (hd : s.body.declared? p = some declared)
    (hb : s.body = .guard e) (hC : s.output = .outcome C encoding) (hl : s.input.unpack? v = some locals)
    (he : p.holdsWith ⟨names, declared⟩ e locals captures = .ok ((true, locals'), captures')) :
    Packs p names s v captures C locals'
  | extend {declared bindings C locals locals' captures'} (hd : s.body.declared? p = some declared)
    (hb : s.body = .extend bindings) (hC : s.output.carrier? = some C) (hl : s.input.unpack? v = some locals)
    (hx : C.extend p ⟨names, declared⟩ locals bindings captures = .ok (locals', captures')) :
    Packs p names s v captures C locals'
  | destructure {declared e parts C composite locals locals' locals'' captures'}
    (hd : s.body.declared? p = some declared) (hb : s.body = .destructure e parts) (hC : s.output.carrier? = some C)
    (hl : s.input.unpack? v = some locals)
    (he : p.evalWith ⟨names, declared⟩ e locals captures = .ok ((composite, locals'), captures'))
    (hx : C.extract composite locals' parts = .ok locals'') : Packs p names s v captures C locals''
  | generate {declared e id C collection items item locals locals' captures'}
    (hd : s.body.declared? p = some declared) (hb : s.body = .generate e id) (hC : s.output.carrier? = some C)
    (hl : s.input.unpack? v = some locals)
    (he : p.evalWith ⟨names, declared⟩ e locals captures = .ok ((collection, locals'), captures'))
    (hi : collection.elements = .ok items) (hm : item ∈ items) :
    Packs p names s v captures C (C.addTo locals' id item)

/-- A stage with a value and captures gives out a value of the shape that goes out. -/
inductive Stage.Gives (p : Pool) (names : SymbolTable) (s : Stage NodeId) (v : Value) (captures : Store) :
    Value → Prop
  | same (hout : s.output = s.input) (hv : ∀ C encoding, s.input = .outcome C encoding → encoding.read? v ≠ some none) :
    Gives p names s v captures v
  | payload {C encoding u} (hin : s.input = .outcome C encoding) (hout : s.output = .carrier C)
    (hu : encoding.read? v = some (some u)) : Gives p names s v captures u
  | packed {C locals u} (hout : s.output = .carrier C) (hp : s.Packs p names v captures C locals)
    (hu : C.pack names locals = .ok u) : Gives p names s v captures u
  | success {e C encoding locals u} (hb : s.body = .guard e) (hout : s.output = .outcome C encoding)
    (hp : s.Packs p names v captures C locals) (hu : C.pack names locals = .ok u) :
    Gives p names s v captures (encoding.write (some u))
  | failure {declared e C encoding locals locals' captures'} (hd : s.body.declared? p = some declared)
    (hb : s.body = .guard e) (hout : s.output = .outcome C encoding) (hl : s.input.unpack? v = some locals)
    (he : p.holdsWith ⟨names, declared⟩ e locals captures = .ok ((false, locals'), captures')) :
    Gives p names s v captures (encoding.write none)
  | result {ty u} (hout : s.output = .projection ty) : Gives p names s v captures u

namespace Pipeline

/-- A run comes to a stage with a value and captures. -/
def Visits (p : Pipeline) (names : SymbolTable) (captures : Store) (s : Stage NodeId) (v : Value)
    (captures' : Store) : Prop :=
  ∃ done w more captures₁ out captures₂, p.elements names captures = .ok (done ++ w :: more, captures₁) ∧
    Run.forEach (Run.through p.pool names 0 p.stages) done captures₁ = .ok (out, captures₂) ∧
    Run.Visits p.pool names 0 p.stages w captures₂ s v captures'

/-- A run evaluates the expression of a clause from a memory.  The source is evaluated first, with no variables. -/
inductive Evaluates (p : Pipeline) (names : SymbolTable) (captures : Store) : Nat → Setting → NodeId → Memory → Prop
  | source : Evaluates p names captures 0 ⟨names, []⟩ p.source ⟨.empty, captures⟩
  | stage {s v captures' g e m} (h : p.Visits names captures s v captures')
    (he : s.Evaluates p.pool names v captures' g e m) : Evaluates p names captures s.clause g e m

/-- A run comes, in a clause, to an expression that reads or assigns a variable, with the memory at that moment. -/
def Touches (p : Pipeline) (names : SymbolTable) (captures : Store) (clause : Nat) (g : Setting) (u : Term)
    (m : Memory) : Prop :=
  ∃ e t m₀, p.Evaluates names captures clause g e m₀ ∧ p.pool.term? e = some t ∧ t.Touches g m₀ u m

/-- A run makes a carrier of variables. -/
def Packs (p : Pipeline) (names : SymbolTable) (captures : Store) (C : Carrier) (locals : Store) : Prop :=
  ∃ s v captures', p.Visits names captures s v captures' ∧ s.Packs p.pool names v captures' C locals

end Pipeline

/-! ### Events of accepted queries -/

namespace Stage

variable {index : Nat} {s : Stage NodeId} {v : Value} {captures : Store} {α : Type} {r : α × Store}

private theorem bind_target_eq_ok {k : Carrier → Run α} (h : (s.target index >>= k) captures = .ok r) :
    ∃ C, s.output.carrier? = some C ∧ k C captures = .ok r := by
  obtain ⟨C, captures', hC, h⟩ := Computation.bind_eq_ok.1 h
  obtain ⟨hC, rfl⟩ := Computation.ofOption_eq_ok.1 hC
  exact ⟨C, hC, h⟩

private theorem bind_locals_eq_ok {k : Store → Run α} (h : (s.locals index v >>= k) captures = .ok r) :
    ∃ locals, s.input.unpack? v = some locals ∧ k locals captures = .ok r := by
  obtain ⟨locals, captures', hl, h⟩ := Computation.bind_eq_ok.1 h
  obtain ⟨hl, rfl⟩ := Computation.ofOption_eq_ok.1 hl
  exact ⟨locals, hl, h⟩

/-- A guard decides its condition, and gives out a success or a failure accordingly. -/
theorem guard_eq_ok {p : Pool} {g : Setting} {input : Shape} {C : Carrier} {encoding : Encoding} {e : NodeId} {k : Nat}
    {ws : List Value} {captures' : Store}
    (h : stepWith p g index ⟨.map, input, .outcome C encoding, .guard e, k⟩ v captures = .ok (ws, captures')) :
    ∃ locals b locals', input.unpack? v = some locals ∧
      p.holdsWith g e locals captures = .ok ((b, locals'), captures') ∧
      ((b = false ∧ ws = [encoding.write none]) ∨
        (b = true ∧ ∃ u, C.pack g.names locals' = .ok u ∧ ws = [encoding.write (some u)])) := by
  obtain ⟨locals, hl, h⟩ := bind_locals_eq_ok h
  obtain ⟨⟨b, locals'⟩, captures₁, he, h⟩ := Computation.bind_eq_ok.1 h
  cases b with
  | false =>
    obtain ⟨rfl, rfl⟩ := Prod.mk.inj (Except.ok.inj h)
    exact ⟨locals, false, locals', hl, he, Or.inl ⟨rfl, rfl⟩⟩
  | true =>
    obtain ⟨u, captures₂, hu, h⟩ := Computation.bind_eq_ok.1 h
    obtain ⟨hu, rfl⟩ := Computation.ofExcept_eq_ok.1 hu
    obtain ⟨rfl, rfl⟩ := Prod.mk.inj (Except.ok.inj h)
    exact ⟨locals, true, locals', hl, he, Or.inr ⟨rfl, u, hu, rfl⟩⟩

end Stage

private theorem Carrier.mem_packEach {C : Carrier} {names : SymbolTable} {locals : Store} {id : BindingId}
    {items ws : List Value} (h : C.packEach names locals id items = .ok ws) {w : Value} (hw : w ∈ ws) :
    ∃ item ∈ items, C.pack names (C.addTo locals id item) = .ok w := by
  induction items generalizing ws with
  | nil =>
    obtain rfl := Except.ok.inj h
    cases hw
  | cons item items ih =>
    rw [packEach] at h
    cases hu : C.pack names (C.addTo locals id item) with
    | error fault =>
      rw [hu] at h
      cases h
    | ok u =>
      cases hrest : C.packEach names locals id items with
      | error fault =>
        simp only [hu, hrest] at h
        cases h
      | ok us =>
        simp only [hu, hrest] at h
        obtain rfl := Except.ok.inj h
        rcases List.mem_cons.1 hw with rfl | hw
        · exact ⟨item, by simp, hu⟩
        · obtain ⟨item', hm, hu'⟩ := ih hrest hw
          exact ⟨item', List.mem_cons_of_mem _ hm, hu'⟩

theorem Run.Visits.mem {p : Pool} {names : SymbolTable} {index : Nat} {stages : List (Stage NodeId)} {v v' : Value}
    {captures captures' : Store} {s : Stage NodeId} (h : Run.Visits p names index stages v captures s v' captures') :
    s ∈ stages := by
  induction h with
  | here => simp
  | later _ _ _ ih => exact List.mem_cons_of_mem _ ih

/-- A stage is visited with the value that came in first, or with one that the stage before it has given out. -/
theorem Run.Visits.preceded {p : Pool} {names : SymbolTable} {index : Nat} {stages : List (Stage NodeId)}
    {v w : Value} {captures captures' : Store} {s : Stage NodeId}
    (h : Run.Visits p names index stages v captures s w captures') :
    (∃ rest, stages = s :: rest ∧ w = v) ∨
    ∃ pre s₀ post u index' captures₁ ws captures₂, stages = pre ++ s₀ :: s :: post ∧
      Run.Visits p names index stages v captures s₀ u captures₁ ∧
      s₀.step p names index' u captures₁ = .ok (ws, captures₂) ∧ w ∈ ws := by
  induction h with
  | here => exact Or.inl ⟨_, rfl, rfl⟩
  | @later index s₁ rest v captures done w more captures₁ out captures₂ s v' captures' hs hd h ih =>
    right
    rcases ih with ⟨rest', rfl, rfl⟩ | ⟨pre, s₀, post, u, index', captures₃, ws, captures₄, rfl, hvisit, hstep, hmem⟩
    · exact ⟨[], s₁, rest', v, index, captures, _, _, rfl, .here, hs, by simp⟩
    · exact ⟨s₁ :: pre, s₀, post, u, index', captures₃, ws, captures₄, rfl, .later hs hd hvisit, hstep, hmem⟩

/-- A clause comes from variables to those of the next carrier: it evaluates its expression and adds what it
names. -/
inductive Chain.Makes (c : Chain) (names : SymbolTable) (before : List Link) (l : Link) (rest : List Link)
    (locals : Store) : Store → Prop
  | filter {locals'} (hk : l.kind = .filter)
    (he : l.term.Evaluated (l.setting names) locals (.bool true) locals') : Makes c names before l rest locals locals'
  | range {w locals'} (hk : l.kind = .generator ∨ l.kind = .define)
    (he : l.term.Evaluated (l.setting names) locals w locals') (item : Value) :
    Makes c names before l rest locals ((c.planned before l rest).addTo locals' ⟨l.ranges.start⟩ item)
  | parts {composite locals' locals''} (hk : l.kind = .unpack)
    (he : l.term.Evaluated (l.setting names) locals composite locals')
    (hx : (c.planned before l rest).extract composite locals'
      (l.ranges.ids.zipIdx.filter fun q => (c.planned before l rest).contains q.1) = .ok locals'') :
    Makes c names before l rest locals locals''

/-- The variables of the next carrier have values. -/
theorem Chain.Makes.held {c : Chain} {f : Flow} {names : SymbolTable} {policy : ScopePolicy} {before rest : List Link}
    {l : Link} {C : Carrier} {locals locals' : Store} (h : c.Makes names before l rest locals locals')
    (hrules : c.KeepsRules f names policy) (hat : c.At before l rest) (hC : c.Carries policy before (l :: rest) C)
    (honly : HoldsOnly C locals) : ∀ fd ∈ (c.planned before l rest).fields, locals'.contains fd.name = true := by
  cases h with
  | filter hk he => exact hrules.held_filter hat hC honly hk he
  | range hk he item => exact hrules.held_range hat hC honly hk he item
  | parts hk he hx => exact hrules.held_parts hat hC honly hk he hx

/-- A stage of a clause: one that evaluates the clause's expression, or one that looks at an outcome only. -/
inductive Chain.StageOf (c : Chain) (before : List Link) (l : Link) (rest : List Link) (C : Carrier) :
    Stage NodeId → Prop
  | project {input} (hin : input.carrier? = some C) : StageOf c before l rest C (l.selection before.length input)
  | predicate {input} (hin : input.carrier? = some C) :
    StageOf c before l rest C ⟨.filter, input, input, .predicate l.expr, before.length⟩
  | guard {input} (hin : input.carrier? = some C) (hk : l.kind = .filter)
    (hsome : ∃ b ∈ l.patterns.ids, c.ReadIn (l :: before) rest b) :
    StageOf c before l rest C
      ⟨.map, input, .outcome (c.planned before l rest) (c.planned before l rest).encoding, .guard l.expr, before.length⟩
  | rejectAbsent {output} (hout : output = .outcome (c.planned before l rest) (c.planned before l rest).encoding) :
    StageOf c before l rest C ⟨.filter, output, output, .rejectAbsent, before.length⟩
  | unwrap {input} (hin : input = .outcome (c.planned before l rest) (c.planned before l rest).encoding) :
    StageOf c before l rest C ⟨.map, input, .carrier (c.planned before l rest), .unwrap, before.length⟩
  | generate {input} (hin : input.carrier? = some C) (hk : l.kind = .generator) :
    StageOf c before l rest C
      ⟨.flatMap, input, .carrier (c.planned before l rest), .generate l.expr ⟨l.ranges.start⟩, before.length⟩
  | extend {input} (hin : input.carrier? = some C) (hk : l.kind = .define) :
    StageOf c before l rest C
      ⟨.map, input, .carrier (c.planned before l rest), .extend [(⟨l.ranges.start⟩, l.expr)], before.length⟩
  | destructure {input} (hin : input.carrier? = some C) (hk : l.kind = .unpack) :
    StageOf c before l rest C
      ⟨.map, input, .carrier (c.planned before l rest),
        .destructure l.expr (l.ranges.ids.zipIdx.filter fun q => (c.planned before l rest).contains q.1),
        before.length⟩

private theorem Chain.Block.stageOf {c : Chain} {before rest : List Link} {l : Link} {input output : Shape}
    {C : Carrier} {stages : List (Stage NodeId)} {s : Stage NodeId} (h : c.Block before l rest input stages output)
    (hin : input.carrier? = some C) (hs : s ∈ stages) : c.StageOf before l rest C s := by
  cases h with
  | generator hk =>
    obtain rfl := List.mem_singleton.1 hs
    exact .generate hin hk
  | forward hk hnone =>
    obtain rfl := List.mem_singleton.1 hs
    exact .predicate hin
  | guard hk hsome hout =>
    subst hout
    simp only [List.mem_cons, List.not_mem_nil, or_false] at hs
    rcases hs with rfl | rfl | rfl
    · exact .guard hin hk hsome
    · exact .rejectAbsent rfl
    · exact .unwrap rfl
  | guardLast hk hsome hout =>
    subst hout
    simp only [List.mem_cons, List.not_mem_nil, or_false] at hs
    rcases hs with rfl | rfl
    · exact .guard hin hk hsome
    · exact .rejectAbsent rfl
  | define hk =>
    obtain rfl := List.mem_singleton.1 hs
    exact .extend hin hk
  | unpack hk =>
    obtain rfl := List.mem_singleton.1 hs
    exact .destructure hin hk

/-- Every stage belongs to a clause after the source. -/
theorem Chain.Lowers.stageOf {c : Chain} {policy : ScopePolicy} {before rest : List Link} {input : Shape}
    {stages : List (Stage NodeId)} {s : Stage NodeId} (h : c.Lowers policy before input rest stages)
    (hlinks : c.links = before.reverse ++ rest) (hne : before ≠ []) (hs : s ∈ stages) :
    ∃ before l rest C, c.At before l rest ∧ before ≠ [] ∧ c.Carries policy before (l :: rest) C ∧
      c.StageOf before l rest C s := by
  induction h with
  | select hin hC =>
    obtain rfl := List.mem_singleton.1 hs
    exact ⟨_, _, _, _, hlinks, hne, hC, .project hin⟩
  | @step before rest input output l C stages more hin hC hblock hrest ih =>
    rcases List.mem_append.1 hs with hs | hs
    · exact ⟨before, l, rest, C, hlinks, hne, hC, hblock.stageOf hin hs⟩
    · exact ih (by rw [hlinks]; simp) (by simp) hs

namespace Chain.StageOf

variable {c : Chain} {before rest : List Link} {l : Link} {C : Carrier} {s : Stage NodeId} {p : Pool}
variable {names : SymbolTable} {v : Value} {captures : Store}

theorem clause (h : c.StageOf before l rest C s) : s.clause = before.length := by
  cases h <;> rfl

/-- The stage evaluates the expression of its clause with what comes in, or it evaluates nothing. -/
theorem exprs (h : c.StageOf before l rest C s) :
    (s.body.expr? = some l.expr ∧ s.input.carrier? = some C ∧ ∀ e ∈ s.body.exprs, e = l.expr) ∨
      s.body.expr? = none ∧ s.body.exprs = [] := by
  cases h with
  | rejectAbsent | unwrap => exact Or.inr ⟨rfl, rfl⟩
  | project hin | predicate hin | guard hin | generate hin | extend hin | destructure hin =>
    exact Or.inl ⟨rfl, hin, by simp [Body.exprs, Link.selection]⟩

private theorem declared (h : c.StageOf before l rest C s) (ht : p.term? l.expr = some l.term) {e : NodeId}
    (he : s.body.expr? = some e) {declared : List Symbol} (hd : s.body.declared? p = some declared) :
    e = l.expr ∧ declared = l.term.boundNames ∧ s.input.carrier? = some C := by
  have hexpr : e = l.expr ∧ s.input.carrier? = some C := by
    cases h with
    | rejectAbsent | unwrap => cases he
    | project hin | predicate hin => exact ⟨(Option.some.inj he).symm, hin⟩
    | guard hin | generate hin | extend hin | destructure hin => exact ⟨(Option.some.inj he).symm, hin⟩
  refine ⟨hexpr.1, ?_, hexpr.2⟩
  unfold Body.declared? at hd
  rw [he, hexpr.1] at hd
  simp only [ht, Option.map_some] at hd
  exact (Option.some.inj hd).symm

theorem evaluates (h : c.StageOf before l rest C s) (ht : p.term? l.expr = some l.term) {g : Setting} {e : NodeId}
    {m : Memory} (he : s.Evaluates p names v captures g e m) :
    g = l.setting names ∧ e = l.expr ∧ s.input.carrier? = some C ∧ HoldsOnly C m.locals := by
  cases he with
  | first hd he hl =>
    obtain ⟨rfl, rfl, hin⟩ := h.declared ht he hd
    exact ⟨rfl, rfl, hin, Shape.unpack?_holdsOnly hin hl⟩
  | @next declared done id e rest' C' locals locals' captures' hd hb hC hl hx =>
    -- a definition has one variable, so nothing is evaluated before it
    have hstage := h
    cases h with
    | extend hin hk =>
      cases done with
      | cons d done => simp at hb
      | nil =>
        obtain ⟨he, hd, hin⟩ := hstage.declared ht rfl hd
        simp only [List.nil_append, Body.extend.injEq, List.cons.injEq, Prod.mk.injEq] at hb
        obtain ⟨⟨-, rfl⟩, -⟩ := hb
        obtain ⟨rfl, rfl⟩ := Prod.mk.inj (Except.ok.inj hx)
        subst hd
        exact ⟨rfl, rfl, hin, Shape.unpack?_holdsOnly hin hl⟩
    | project | predicate | guard | rejectAbsent | unwrap | generate | destructure => simp [Link.selection] at hb

private theorem evaluated (ht : p.term? l.expr = some l.term) {locals locals' captures' : Store} {w : Value}
    (he : p.evalWith ⟨names, l.term.boundNames⟩ l.expr locals captures = .ok ((w, locals'), captures')) :
    l.term.Evaluated (l.setting names) locals w locals' :=
  ⟨captures, captures', (Pool.evalWith_eq_ok ht).1 he⟩

/-- Where a stage of a clause makes a carrier, it is the one planned, of the variables that the clause makes. -/
theorem makes (h : c.StageOf before l rest C s) (ht : p.term? l.expr = some l.term) {C' : Carrier} {locals' : Store}
    (hp : s.Packs p names v captures C' locals') :
    C' = c.planned before l rest ∧ s.input.carrier? = some C ∧
      ∃ locals, s.input.unpack? v = some locals ∧ c.Makes names before l rest locals locals' := by
  have hstage := h
  cases hp with
  | guard hd hb ho hl he =>
    cases h with
    | guard hin hk =>
      obtain ⟨-, rfl, -⟩ := hstage.declared ht rfl hd
      obtain rfl := Body.guard.inj hb
      obtain ⟨rfl, -⟩ := Shape.outcome.inj ho
      obtain ⟨⟨w, locals₁⟩, captures₁, hw, he⟩ := Computation.bind_eq_ok.1 he
      obtain ⟨b, captures₂, hb', he⟩ := Computation.bind_eq_ok.1 he
      obtain ⟨hb', rfl⟩ := Computation.ofExcept_eq_ok.1 hb'
      obtain ⟨hr, rfl⟩ := Prod.mk.inj (Except.ok.inj he)
      obtain ⟨rfl, rfl⟩ := Prod.mk.inj hr
      obtain rfl := Value.asBool_eq_ok.1 hb'
      exact ⟨rfl, hin, _, hl, .filter hk (evaluated ht hw)⟩
    | project | predicate | rejectAbsent | unwrap | generate | extend | destructure => simp [Link.selection] at hb
  | extend hd hb ho hl hx =>
    cases h with
    | extend hin hk =>
      obtain ⟨-, rfl, -⟩ := hstage.declared ht rfl hd
      obtain rfl := Body.extend.inj hb
      obtain rfl := Option.some.inj ho
      obtain ⟨⟨w, locals₁⟩, captures₁, hw, hx⟩ := Computation.bind_eq_ok.1 hx
      obtain ⟨rfl, rfl⟩ := Prod.mk.inj (Except.ok.inj hx)
      exact ⟨rfl, hin, _, hl, .range (Or.inr hk) (evaluated ht hw) w⟩
    | project | predicate | guard | rejectAbsent | unwrap | generate | destructure => simp [Link.selection] at hb
  | destructure hd hb ho hl he hx =>
    cases h with
    | destructure hin hk =>
      obtain ⟨-, rfl, -⟩ := hstage.declared ht rfl hd
      obtain ⟨rfl, rfl⟩ := Body.destructure.inj hb
      obtain rfl := Option.some.inj ho
      exact ⟨rfl, hin, _, hl, .parts hk (evaluated ht he) hx⟩
    | project | predicate | guard | rejectAbsent | unwrap | generate | extend => simp [Link.selection] at hb
  | generate hd hb ho hl he hi hm =>
    cases h with
    | generate hin hk =>
      obtain ⟨-, rfl, -⟩ := hstage.declared ht rfl hd
      obtain ⟨rfl, rfl⟩ := Body.generate.inj hb
      obtain rfl := Option.some.inj ho
      exact ⟨rfl, hin, _, hl, .range (Or.inl hk) (evaluated ht he) _⟩
    | project | predicate | guard | rejectAbsent | unwrap | extend | destructure => simp [Link.selection] at hb

/-- Where a stage of a clause makes a carrier, the variables of the carrier have values. -/
theorem packs {f : Flow} {policy : ScopePolicy} (h : c.StageOf before l rest C s)
    (hrules : c.KeepsRules f names policy) (hat : c.At before l rest) (hC : c.Carries policy before (l :: rest) C)
    (ht : p.term? l.expr = some l.term) {C' : Carrier} {locals : Store} (hp : s.Packs p names v captures C' locals) :
    ∀ fd ∈ C'.fields, locals.contains fd.name = true := by
  obtain ⟨rfl, hin, locals₀, hl, hmakes⟩ := h.makes ht hp
  exact hmakes.held hrules hat hC (Shape.unpack?_holdsOnly hin hl)

/-- All that a stage of a clause gives out. -/
theorem gives (h : c.StageOf before l rest C s) (ht : p.term? l.expr = some l.term) {index : Nat} {ws : List Value}
    {captures' : Store} (hstep : s.step p names index v captures = .ok (ws, captures')) {w : Value} (hw : w ∈ ws) :
    s.Gives p names v captures w := by
  have hdeclared (hexpr : s.body.expr? = some l.expr) : s.body.declared? p = some l.term.boundNames := by
    unfold Body.declared?
    rw [hexpr]
    simp only [ht, Option.map_some]
    rfl
  cases h with
  | rejectAbsent hout =>
    subst hout
    obtain ⟨payload, captures₁, hread, hstep⟩ := Computation.bind_eq_ok.1 hstep
    obtain ⟨hread, -⟩ := Computation.ofOption_eq_ok.1 hread
    obtain ⟨rfl, -⟩ := Prod.mk.inj (Except.ok.inj hstep)
    cases payload with
    | none => cases hw
    | some u =>
      obtain rfl := List.mem_singleton.1 hw
      refine .same rfl fun D encoding hin => ?_
      obtain ⟨rfl, rfl⟩ := Shape.outcome.inj hin
      rw [hread]
      simp
  | unwrap hin =>
    subst hin
    obtain ⟨payload, captures₁, hread, hstep⟩ := Computation.bind_eq_ok.1 hstep
    obtain ⟨rfl, -⟩ := Prod.mk.inj (Except.ok.inj hstep)
    obtain rfl := List.mem_singleton.1 hw
    exact .payload rfl rfl (Option.join_eq_some_iff.1 (Computation.ofOption_eq_ok.1 hread).1)
  | project hin => exact .result rfl
  | @predicate input hin =>
    rw [Stage.step_of_term rfl ht] at hstep
    obtain ⟨locals, hl, hstep⟩ := Stage.bind_locals_eq_ok hstep
    obtain ⟨⟨b, locals'⟩, captures₁, -, hstep⟩ := Computation.bind_eq_ok.1 hstep
    obtain ⟨rfl, -⟩ := Prod.mk.inj (Except.ok.inj hstep)
    cases b with
    | false => cases hw
    | true =>
      obtain rfl := List.mem_singleton.1 hw
      refine .same rfl fun D encoding (hout : input = .outcome D encoding) hread => ?_
      subst hout
      simp [Shape.unpack?, hread] at hl
  | guard hin hk hsome =>
    rw [Stage.step_of_term rfl ht] at hstep
    obtain ⟨locals, b, locals', hl, he, ⟨rfl, rfl⟩ | ⟨rfl, u, hu, rfl⟩⟩ := Stage.guard_eq_ok hstep
    · obtain rfl := List.mem_singleton.1 hw
      exact .failure (hdeclared rfl) rfl rfl hl he
    · obtain rfl := List.mem_singleton.1 hw
      exact .success rfl rfl (.guard (hdeclared rfl) rfl rfl hl he) hu
  | extend hin hk =>
    rw [Stage.step_of_term rfl ht] at hstep
    obtain ⟨D, hD, hstep⟩ := Stage.bind_target_eq_ok hstep
    obtain rfl := Option.some.inj hD
    obtain ⟨locals, hl, hstep⟩ := Stage.bind_locals_eq_ok hstep
    obtain ⟨locals', captures₁, hx, hstep⟩ := Computation.bind_eq_ok.1 hstep
    obtain ⟨u, captures₂, hu, hstep⟩ := Computation.bind_eq_ok.1 hstep
    obtain ⟨rfl, -⟩ := Prod.mk.inj (Except.ok.inj hstep)
    obtain rfl := List.mem_singleton.1 hw
    exact .packed rfl (.extend (hdeclared rfl) rfl rfl hl hx) (Computation.ofExcept_eq_ok.1 hu).1
  | destructure hin hk =>
    rw [Stage.step_of_term rfl ht] at hstep
    obtain ⟨D, hD, hstep⟩ := Stage.bind_target_eq_ok hstep
    obtain rfl := Option.some.inj hD
    obtain ⟨locals, hl, hstep⟩ := Stage.bind_locals_eq_ok hstep
    obtain ⟨⟨composite, locals'⟩, captures₁, he, hstep⟩ := Computation.bind_eq_ok.1 hstep
    obtain ⟨locals'', captures₂, hx, hstep⟩ := Computation.bind_eq_ok.1 hstep
    obtain ⟨u, captures₃, hu, hstep⟩ := Computation.bind_eq_ok.1 hstep
    obtain ⟨rfl, -⟩ := Prod.mk.inj (Except.ok.inj hstep)
    obtain rfl := List.mem_singleton.1 hw
    exact .packed rfl (.destructure (hdeclared rfl) rfl rfl hl he (Computation.ofExcept_eq_ok.1 hx).1)
      (Computation.ofExcept_eq_ok.1 hu).1
  | generate hin hk =>
    rw [Stage.step_of_term rfl ht] at hstep
    obtain ⟨D, hD, hstep⟩ := Stage.bind_target_eq_ok hstep
    obtain rfl := Option.some.inj hD
    obtain ⟨locals, hl, hstep⟩ := Stage.bind_locals_eq_ok hstep
    obtain ⟨⟨collection, locals'⟩, captures₁, he, hstep⟩ := Computation.bind_eq_ok.1 hstep
    obtain ⟨items, captures₂, hi, hstep⟩ := Computation.bind_eq_ok.1 hstep
    obtain ⟨item, hm, hu⟩ := Carrier.mem_packEach (Computation.ofExcept_eq_ok.1 hstep).1 hw
    exact .packed rfl (.generate (hdeclared rfl) rfl rfl hl he (Computation.ofExcept_eq_ok.1 hi).1 hm) hu

end Chain.StageOf

namespace Query.Accepted

variable {q : Query} {names : SymbolTable} {policy : ScopePolicy} {c : Chain} {f : Flow} {first : Link}
variable {rest : List Link} {p : Pipeline} {captures : Store}

theorem term (h : q.Accepted names policy c f first rest p) {before rest' : List Link} {l : Link}
    (hat : c.At before l rest') : p.pool.term? l.expr = some l.term := by
  obtain ⟨cl, hof, -⟩ := h.rules.formed _ _ _ hat
  rw [h.pool, hof.expr]
  exact hof.term

theorem stageOf (h : q.Accepted names policy c f first rest p) {s : Stage NodeId} {v : Value} {captures' : Store}
    (hv : p.Visits names captures s v captures') :
    ∃ before l rest C, c.At before l rest ∧ before ≠ [] ∧ c.Carries policy before (l :: rest) C ∧
      c.StageOf before l rest C s := by
  obtain ⟨done, w, more, captures₁, out, captures₂, -, -, hvisit⟩ := hv
  exact h.stages.stageOf (by rw [h.links]; rfl) (by simp) hvisit.mem

/-- What a run evaluates is the source, or the expression of a later clause with the variables that come in. -/
theorem evaluates (h : q.Accepted names policy c f first rest p) {k : Nat} {g : Setting} {e : NodeId} {m : Memory}
    (he : p.Evaluates names captures k g e m) :
    (k = 0 ∧ g = ⟨names, []⟩ ∧ e = first.expr ∧ m.locals = .empty) ∨
    ∃ before l rest C, c.At before l rest ∧ before ≠ [] ∧ before.length = k ∧ c.Carries policy before (l :: rest) C ∧
      g = l.setting names ∧ e = l.expr ∧ Chain.HoldsOnly C m.locals := by
  cases he with
  | source => exact Or.inl ⟨rfl, rfl, h.source, rfl⟩
  | stage hv he =>
    obtain ⟨before, l, rest, C, hat, hne, hC, hs⟩ := h.stageOf hv
    obtain ⟨hg, hexpr, -, hlocals⟩ := hs.evaluates (h.term hat) he
    exact Or.inr ⟨before, l, rest, C, hat, hne, hs.clause.symm, hC, hg, hexpr, hlocals⟩

/-- Making a carrier succeeds at every moment of a run. -/
theorem packs (h : q.Accepted names policy c f first rest p) {C : Carrier} {locals : Store}
    (hp : p.Packs names captures C locals) : ∃ v, C.pack names locals = .ok v := by
  obtain ⟨s, v, captures', hv, hp⟩ := hp
  obtain ⟨before, l, rest, C', hat, -, hC, hs⟩ := h.stageOf hv
  exact Carrier.pack_isOk names (hs.packs h.rules hat hC (h.term hat) hp)

end Query.Accepted

end QueryPipeline
