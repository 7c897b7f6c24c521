import QueryPipeline.Proofs.SameTree

/-!
# Chains under other names and ids

A chain is recast by renaming its variables and giving its expressions other ids.  Every step from a chain to its
pipeline commutes with that: what a name denotes, the facts and uses, all that is reported, what is carried, and the
stages.  There is one exception, whether a use comes before the test that binds its variable, since that is found by
the ids of the nodes.  So the rules are compared for a flow that is given (`Chain.lowerWith_recast`).
-/

namespace QueryPipeline

/-- The clause with its names renamed and its expression under another id. -/
def Link.recast (r : Renaming) (g : NodeId → NodeId) (l : Link) : Link :=
  { l with expr := g l.expr, term := l.term.recast r g }

/-- The chain with its names renamed and its expressions under other ids, in another pool. -/
def Chain.recast (r : Renaming) (g : NodeId → NodeId) (pool : Pool) (c : Chain) : Chain where
  pool := pool
  links := c.links.map (Link.recast r g)
  bindings := c.bindings.map (Binding.rename r)

/-- The use with its name renamed. -/
def Use.rename (r : Renaming) (u : Use) : Use := { u with name := r u.name }

/-- The use without the mark that it comes before the test. -/
def Use.unmarked (u : Use) : Use := { u with beforeDeclaration := false }

/-- The flow with its names renamed. -/
def Flow.rename (r : Renaming) (f : Flow) : Flow := ⟨f.facts, f.uses.map (List.map (Use.rename r))⟩

@[simp]
theorem Flow.rename_refl (f : Flow) : f.rename .refl = f := by
  have hus : List.map (Use.rename .refl) = id := funext fun us => List.map_id us
  rw [Flow.rename, hus, List.map_id]

namespace Chain

variable (r : Renaming) (g : NodeId → NodeId) (pool : Pool) (c : Chain)

@[simp]
theorem size_recast : (c.recast r g pool).size = c.size := by simp [size, recast]

@[simp]
theorem links_recast : (c.recast r g pool).links = c.links.map (Link.recast r g) := rfl

@[simp]
theorem binding?_recast (b : BindingId) : (c.recast r g pool).binding? b = (c.binding? b).map (Binding.rename r) := by
  simp [binding?, recast]

/-! ### What names denote -/

@[simp]
theorem named_recast (x : Symbol) (ids : List BindingId) : (c.recast r g pool).named (r x) ids = c.named x ids := by
  unfold named
  congr 1
  funext b
  simp [Binding.rename, Option.any_map]

private theorem denotedBefore_recast (x : Symbol) (before : List Link) :
    (c.recast r g pool).denotedBefore (r x) (before.map (Link.recast r g)) = c.denotedBefore x before := by
  have hids : ∀ l : Link, (l.recast r g).ids = l.ids := fun _ => rfl
  simp only [denotedBefore, List.findSome?_map, Function.comp_def, hids, named_recast]

theorem resolve_recast (x : Symbol) (l : Link) (before : List Link) :
    (c.recast r g pool).resolve (r x) (l.recast r g) (before.map (Link.recast r g)) = c.resolve x l before := by
  have hpatterns : (l.recast r g).patterns = l.patterns := rfl
  rw [resolve, resolve, hpatterns, named_recast, denotedBefore_recast]

end Chain

/-! ### Uses -/

/-- Whether a node of the clause gets its value before the first test that binds the variable is made. -/
def Link.isBeforeTest (l : Link) (t : Term) (x : Symbol) : Bool :=
  (declaredAt? l.term.settled x).all fun d => settledAt l.term.settled t.id < d

/-- The use at a node of the clause, given the clauses before, latest first. -/
def Chain.useAt (c : Chain) (l : Link) (before : List Link) (t : Term) : Option Use :=
  t.mention?.map fun m =>
    ⟨m.1, c.resolve m.1 l before, t.span, m.2,
      match c.resolve m.1 l before with
      | .sameClause _ => l.isBeforeTest t m.1
      | _ => false⟩

theorem Chain.usesOf_eq (c : Chain) (l : Link) (before : List Link) :
    c.usesOf l before = l.term.walk.filterMap (c.useAt l before) := rfl

private theorem Term.id_recast (r : Renaming) (t : Term) : (t.recast r fun j => j).id = t.id := by
  cases t <;> rfl

/-- A renaming does not change which node comes first. -/
theorem Link.isBeforeTest_rename (r : Renaming) (l : Link) (t : Term) (x : Symbol) :
    (l.recast r fun j => j).isBeforeTest (t.recast r fun j => j) (r x) = l.isBeforeTest t x := by
  have hat : ∀ i, settledAt (l.term.settled.map (Term.recast r fun j => j)) i = settledAt l.term.settled i := by
    intro i
    simp [settledAt, ← List.map_reverse, Function.comp_def, Term.id_recast]
  have hdeclared : declaredAt? (l.term.settled.map (Term.recast r fun j => j)) (r x) =
      declaredAt? l.term.settled x := by
    simp [declaredAt?, List.filter_map, Function.comp_def, Term.id_recast, hat, Term.bound?_recast]
  simp only [isBeforeTest, recast, Term.settled_recast, Term.id_recast, hat, hdeclared]

namespace Chain

variable (r : Renaming) (g : NodeId → NodeId) (pool : Pool) (c : Chain)

private theorem useAt_unmarked (l : Link) (before : List Link) (t : Term) :
    ((c.recast r g pool).useAt (l.recast r g) (before.map (Link.recast r g)) (t.recast r g)).map Use.unmarked =
      (c.useAt l before t).map fun u => (u.rename r).unmarked := by
  unfold useAt
  rw [Term.mention?_recast]
  cases t.mention? with
  | none => rfl
  | some m => simp [resolve_recast, Term.span_recast, Use.unmarked, Use.rename]

private theorem useAt_rename (l : Link) (before : List Link) (t : Term) :
    (c.recast r (fun j => j) pool).useAt (l.recast r fun j => j) (before.map (Link.recast r fun j => j))
      (t.recast r fun j => j) = (c.useAt l before t).map (Use.rename r) := by
  unfold useAt
  rw [Term.mention?_recast]
  cases t.mention? with
  | none => rfl
  | some m => simp [resolve_recast, Term.span_recast, Link.isBeforeTest_rename, Use.rename]

/-- What holds of the use at each node holds of all uses. -/
private theorem usesFrom_recast {F F' : Use → Use}
    (h : ∀ l before t, ((c.recast r g pool).useAt (l.recast r g) (before.map (Link.recast r g))
      (t.recast r g)).map F = (c.useAt l before t).map F') (before links : List Link) :
    ((c.recast r g pool).usesFrom (before.map (Link.recast r g)) (links.map (Link.recast r g))).map (List.map F) =
      (c.usesFrom before links).map (List.map F') := by
  induction links generalizing before with
  | nil => rfl
  | cons l links ih =>
    have hrest := ih (l :: before)
    have hterm : (l.recast r g).term = l.term.recast r g := rfl
    simp only [List.map_cons, usesFrom, usesOf_eq, hterm, Term.walk_recast, List.filterMap_map, List.map_filterMap,
      Function.comp_def, h] at hrest ⊢
    rw [hrest]

theorem uses_unmarked :
    ((c.recast r g pool).usesFrom [] (c.recast r g pool).links).map (List.map Use.unmarked) =
      (c.usesFrom [] c.links).map (List.map fun u => (u.rename r).unmarked) :=
  usesFrom_recast r g pool c (c.useAt_unmarked r g pool) [] c.links

private theorem uses_rename :
    (c.recast r (fun j => j) pool).usesFrom [] (c.recast r (fun j => j) pool).links =
      (c.usesFrom [] c.links).map (List.map (Use.rename r)) := by
  have hsame : ∀ l before t, ((c.recast r (fun j => j) pool).useAt (l.recast r fun j => j)
      (before.map (Link.recast r fun j => j)) (t.recast r fun j => j)).map id =
        (c.useAt l before t).map (Use.rename r) := by
    intro l before t
    rw [useAt_rename, Option.map_id, id_eq]
  have huses := usesFrom_recast r (fun j => j) pool c hsame [] c.links
  rw [List.map_id_fun, List.map_id_fun, id_eq] at huses
  exact huses

/-! ### Facts and clashes -/

@[simp]
theorem facts_recast : (c.recast r g pool).facts = c.facts := by
  have hfacts : ∀ b : Binding, (c.recast r g pool).factsOf (b.rename r) = c.factsOf b := by
    intro b
    have houtlives : (c.recast r g pool).outlives (b.rename r) = c.outlives b := by
      simp [outlives, recast, Binding.rename, Option.any_map, Link.recast]
    have hfact : (b.rename r).factIn = b.factIn := rfl
    rw [factsOf, factsOf, houtlives, size_recast, hfact]
  have hbindings : (c.recast r g pool).bindings.toList = c.bindings.toList.map (Binding.rename r) := Array.toList_map
  rw [facts, facts, hbindings, List.map_map]
  exact List.map_congr_left fun b _ => hfacts b

variable {r} {names names' : SymbolTable}

theorem ambiguities_recast (h : names.Spells r names') :
    (c.recast r g pool).ambiguities names' = c.ambiguities names := by
  have hfrom : ∀ index links, ambiguitiesFrom names' index (links.map (Link.recast r g)) =
      ambiguitiesFrom names index links := by
    intro index links
    induction links generalizing index with
    | nil => rfl
    | cons l links ih =>
      have hclashes : (l.recast r g).term.clashes = l.term.clashes.map (Clash.rename r) :=
        Term.clashes_recast r g l.term
      rw [List.map_cons, ambiguitiesFrom, ambiguitiesFrom, ih, hclashes, List.map_map]
      congr 1
      exact List.map_congr_left fun d _ => by simp [Clash.rename, h d.name]
  rw [ambiguities, ambiguities, recast, hfrom]

/-! ### Rules of scope -/

private theorem clauseUses_recast (f : Flow) :
    (c.recast r g pool).clauseUses (f.rename r) = (c.clauseUses f).map fun ku => (ku.1, ku.2.rename r) := by
  have huses : ∀ k, (f.rename r).usesIn k = (f.usesIn k).map (Use.rename r) := by
    intro k
    simp only [Flow.usesIn, Flow.rename, List.getElem?_map]
    cases f.uses[k]? <;> rfl
  simp [clauseUses, huses, List.map_flatMap, Function.comp_def]

private theorem escapes_recast (h : names.Spells r names') (f : Flow) (policy : ScopePolicy) :
    (c.recast r g pool).escapes (f.rename r) names' policy = c.escapes f names policy := by
  rw [escapes, escapes, clauseUses_recast, List.filterMap_map]
  refine List.filterMap_congr fun ku _ => ?_
  obtain ⟨k, u⟩ := ku
  have hresolution : (u.rename r).resolution = u.resolution := rfl
  simp only [Function.comp_def, hresolution, binding?_recast]
  cases u.resolution with
  | sameClause | outer => rfl
  | earlier b =>
    simp only
    cases c.binding? b with
    | none => rfl
    | some bd => simp [Binding.rename, Binding.isPattern, Use.rename, h bd.name]

private theorem repeats_recast (h : names.Spells r names') (policy : ScopePolicy) :
    (c.recast r g pool).repeats names' policy = c.repeats names policy := by
  have hfrom : ∀ before bs : List Binding, repeatsFrom names' policy (before.map (Binding.rename r))
      (bs.map (Binding.rename r)) = repeatsFrom names policy before bs := by
    intro before bs
    induction bs generalizing before with
    | nil => rfl
    | cons b bs ih =>
      have hfind : (before.map (Binding.rename r)).find? (fun a => a.name == (b.rename r).name) =
          (before.find? fun a => a.name == b.name).map (Binding.rename r) := by
        simp [List.find?_map, Binding.rename, Function.comp_def]
      rw [List.map_cons, repeatsFrom, repeatsFrom, hfind]
      cases before.find? fun a => a.name == b.name with
      | none =>
        have hrest := ih (before ++ [b])
        rw [List.map_append] at hrest
        exact hrest
      | some a => simp [ih before, Binding.rename, h b.name]
  have hbindings : (c.recast r g pool).bindings.toList.filter Binding.isPattern =
      (c.bindings.toList.filter Binding.isPattern).map (Binding.rename r) := by
    rw [recast, Array.toList_map, List.filter_map]
    rfl
  rw [repeats, repeats, hbindings]
  exact hfrom [] _

private theorem readOnlyAssignments_recast (h : names.Spells r names') (f : Flow) :
    (c.recast r g pool).readOnlyAssignments (f.rename r) names' = c.readOnlyAssignments f names := by
  rw [readOnlyAssignments, readOnlyAssignments, clauseUses_recast, List.filterMap_map]
  refine List.filterMap_congr fun ku _ => ?_
  obtain ⟨k, u⟩ := ku
  have hassignable : ∀ id, ((c.binding? id).map (Binding.rename r)).any (·.isAssignableIn k) =
      (c.binding? id).any (·.isAssignableIn k) := by
    intro id
    cases c.binding? id <;> rfl
  simp [Use.rename, binding?_recast, hassignable, h u.name]

private theorem isHeld_recast (f : Flow) (policy : ScopePolicy) (clause : Nat) (b : Binding) (before : List BindingId) :
    (c.recast r g pool).isHeld (f.rename r) policy clause (b.rename r) before = c.isHeld f policy clause b before := by
  unfold isHeld
  congr 1
  funext id
  rw [binding?_recast]
  cases c.binding? id with
  | none => rfl
  | some held => simp [Binding.rename, Binding.isPattern, Flow.fact, Flow.rename]

private theorem rebindingsIn_recast (h : names.Spells r names') (f : Flow) (policy : ScopePolicy) (clause : Nat)
    (before : List BindingId) (own : List Symbol) (ids : List BindingId) :
    (c.recast r g pool).rebindingsIn (f.rename r) names' policy clause before (own.map r) ids =
      c.rebindingsIn f names policy clause before own ids := by
  induction ids generalizing own with
  | nil => rfl
  | cons id ids ih =>
    rw [rebindingsIn, rebindingsIn, binding?_recast]
    cases c.binding? id with
    | none => exact ih own
    | some b =>
      have hrest := ih (b.name :: own)
      rw [List.map_cons] at hrest
      simp only [Option.map_some, isHeld_recast]
      simp [Binding.rename, hrest, h b.name]

private theorem rebindingsFrom_recast (h : names.Spells r names') (f : Flow) (policy : ScopePolicy) (clause : Nat)
    (before : List BindingId) (links : List Link) :
    (c.recast r g pool).rebindingsFrom (f.rename r) names' policy clause before (links.map (Link.recast r g)) =
      c.rebindingsFrom f names policy clause before links := by
  induction links generalizing clause before with
  | nil => rfl
  | cons l links ih =>
    have hids : (l.recast r g).ids = l.ids := rfl
    have hown := rebindingsIn_recast g pool c h f policy clause before [] l.ids
    rw [List.map_nil] at hown
    rw [List.map_cons, rebindingsFrom, rebindingsFrom, hids, hown, ih]

private theorem scopeFaults_recast (h : names.Spells r names') (f : Flow) (policy : ScopePolicy) :
    (c.recast r g pool).scopeFaults (f.rename r) names' policy = c.scopeFaults f names policy := by
  have hrebindings := rebindingsFrom_recast g pool c h f policy 0 [] c.links
  unfold scopeFaults
  rw [readOnlyAssignments_recast g pool c h, show (c.recast r g pool).links = c.links.map (Link.recast r g) from rfl,
    hrebindings]
  cases policy with
  | disallow => simp only [escapes_recast g pool c h]
  | unique => simp only [repeats_recast g pool c h]

end Chain

/-! ### Uses without a value -/

private theorem Flow.unassignedFrom_rename {r : Renaming} {names names' : SymbolTable} (h : names.Spells r names')
    (f : Flow) (clause : Nat) (uses : List (List Use)) :
    (f.rename r).unassignedFrom names' clause (uses.map (List.map (Use.rename r))) =
      f.unassignedFrom names clause uses := by
  induction uses generalizing clause with
  | nil => rfl
  | cons us uses ih =>
    have hunassigned : ∀ u : Use, (f.rename r).isUnassigned clause (u.rename r) = f.isUnassigned clause u :=
      fun _ => rfl
    rw [List.map_cons, unassignedFrom, unassignedFrom, ih, List.filter_map, List.map_map]
    simp only [Function.comp_def, hunassigned]
    congr 1
    exact List.map_congr_left fun u _ => by simp [Use.rename, h u.name]

/-! ### Plans -/

/-- What is carried after a clause, with the names renamed and the ids changed. -/
def Boundary.recast (r : Renaming) (g : NodeId → NodeId) (b : Boundary) : Boundary :=
  { b with
    carrier := b.carrier.rename r
    extraction := b.extraction.map fun e => { e with source := g e.source } }

/-- The plan with the names renamed and the ids changed. -/
def Plan.recast (r : Renaming) (g : NodeId → NodeId) (p : Plan) : Plan := ⟨p.boundaries.map (Boundary.recast r g)⟩

private theorem Link.extraction_recast (r : Renaming) (g : NodeId → NodeId) (l : Link) (clause : Nat)
    (live : List BindingId) :
    (l.recast r g).extraction clause live =
      (l.extraction clause live).map fun e => { e with source := g e.source } := by
  have hparts : (l.recast r g).parts? = l.parts? := by
    unfold parts? recast
    cases l.term with
    | row o kind items => cases kind <;> simp
    | _ => rfl
  have hranges : (l.recast r g).ranges = l.ranges := rfl
  rw [extraction, extraction, hparts, hranges]
  split <;> rfl

namespace Chain

variable (r : Renaming) (g : NodeId → NodeId) (pool : Pool) (c : Chain)

private theorem carrierOf_recast (clause : Nat) (ids : List BindingId) :
    (c.recast r g pool).carrierOf clause ids = (c.carrierOf clause ids).rename r := by
  simp [carrierOf, Carrier.rename, List.map_filterMap, Function.comp_def, Field.rename, Binding.rename]

private theorem minimalCarrier_recast (clause : Nat) (live : List BindingId) :
    (c.recast r g pool).minimalCarrier clause live = (c.minimalCarrier clause live).rename r := by
  have hclause : ∀ id, ((c.recast r g pool).binding? id).any (fun b => decide (b.clause ≤ clause)) =
      (c.binding? id).any fun b => decide (b.clause ≤ clause) := by
    intro id
    rw [binding?_recast]
    cases c.binding? id <;> rfl
  simp only [minimalCarrier, carrierOf_recast, hclause]

private theorem boundaryAfter_recast (clause : Nat) (before : Carrier) (live : List BindingId) (l : Link) :
    (c.recast r g pool).boundaryAfter clause (before.rename r) live (l.recast r g) =
      (c.boundaryAfter clause before live l).map (Boundary.recast r g) := by
  have hkind : (l.recast r g).kind = l.kind := rfl
  have hpatterns : (l.recast r g).patterns = l.patterns := rfl
  unfold boundaryAfter
  simp only [hkind, hpatterns, minimalCarrier_recast, Link.extraction_recast, Carrier.encoding_rename]
  cases l.kind with
  | filter =>
    simp only
    cases l.patterns.ids.any live.contains <;> rfl
  | unpack =>
    simp only
    cases l.extraction clause live <;> rfl
  | source | generator | define | select => rfl

private theorem boundariesFrom_recast (clause : Nat) (before : Carrier) (rows : List (Link × List BindingId)) :
    (c.recast r g pool).boundariesFrom clause (before.rename r) (rows.map fun q => (q.1.recast r g, q.2)) =
      (c.boundariesFrom clause before rows).map (List.map (Boundary.recast r g)) := by
  induction rows generalizing clause before with
  | nil => rfl
  | cons q rows ih =>
    cases rows with
    | nil => rfl
    | cons q' rows =>
      rw [List.map_cons, List.map_cons, boundariesFrom_two, boundariesFrom_two, boundaryAfter_recast]
      refine Except.map_bind fun b => ?_
      have hrest := ih (clause + 1) b.carrier
      rw [List.map_cons] at hrest
      rw [show (b.recast r g).carrier = b.carrier.rename r from rfl, hrest]
      exact Except.map_bind fun later => rfl

theorem plan_recast (f : Flow) :
    (c.recast r g pool).plan (f.rename r) = (c.plan f).map (Plan.recast r g) := by
  have hsource : (c.recast r g pool).carrierOf 0
      (((c.recast r g pool).links.head?.map fun l => BindingId.mk l.ranges.start).toList) =
      (c.carrierOf 0 ((c.links.head?.map fun l => BindingId.mk l.ranges.start).toList)).rename r := by
    rw [carrierOf_recast, links_recast, List.head?_map]
    cases c.links.head? <;> rfl
  have hlive : (f.rename r).readSets = f.readSets := by
    simp [Flow.readSets, Flow.rename, readsOf, List.filterMap_map, Function.comp_def, Use.rename]
  have hrows : (((c.recast r g pool).links.zip (liveAfter f.readSets)).drop 1) =
      ((c.links.zip (liveAfter f.readSets)).drop 1).map fun q => (q.1.recast r g, q.2) := by
    rw [recast, List.zip_map_left, List.map_drop]
    rfl
  unfold plan
  simp only [hsource, hlive, hrows, boundariesFrom_recast]
  cases c.boundariesFrom 1 _ ((c.links.zip (liveAfter f.readSets)).drop 1) <;> rfl

end Chain

/-! ### Stages -/

/-- The stage with its names renamed and its expressions under other ids. -/
def Stage.recast (r : Renaming) (g : NodeId → NodeId) (s : Stage NodeId) : Stage NodeId :=
  ⟨s.kind, s.input.rename r, s.output.rename r, s.body.map g, s.clause⟩

/-- The pipeline with its names renamed and its expressions under other ids, in another pool. -/
def Pipeline.recast (r : Renaming) (g : NodeId → NodeId) (pool : Pool) (p : Pipeline) : Pipeline where
  pool := pool
  source := g p.source
  sourceCarrier := p.sourceCarrier.rename r
  stages := p.stages.map (Stage.recast r g)

private theorem Shape.carries_rename (r : Renaming) (s : Shape) (id : BindingId) :
    (s.rename r).carrier?.any (·.contains id) = s.carrier?.any (·.contains id) := by
  rw [Shape.carrier?_rename]
  cases s.carrier? with
  | none => rfl
  | some C => exact C.contains_rename r id

namespace Link

variable (r : Renaming) (g : NodeId → NodeId) (l : Link)

private theorem carrierWithin_recast (input : Shape) (planned : Carrier) :
    (l.recast r g).carrierWithin (input.rename r) (planned.rename r) = (l.carrierWithin input planned).rename r := by
  have hids : (l.recast r g).ids = l.ids := rfl
  have hfields : (planned.rename r).fields = planned.fields.map (Field.rename r) := rfl
  have hbinding : ∀ f : Field, (f.rename r).binding = f.binding := fun _ => rfl
  rw [carrierWithin, carrierWithin, hids, hfields, List.filter_map]
  simp only [Function.comp_def, hbinding, Shape.carries_rename]
  rfl

private theorem stagesWithin_recast (clause : Nat) (input : Shape) (beforeSelect : Bool) (b : Boundary) :
    (l.recast r g).stagesWithin clause (input.rename r) beforeSelect (b.recast r g) =
      (l.stagesWithin clause input beforeSelect b).map (List.map (Stage.recast r g)) := by
  have hkind : (l.recast r g).kind = l.kind := rfl
  have hranges : (l.recast r g).ranges = l.ranges := rfl
  have hcarrier : (l.recast r g).carrierWithin (input.rename r) (b.recast r g).carrier =
      (l.carrierWithin input b.carrier).rename r := l.carrierWithin_recast r g input b.carrier
  have houtcome : (b.recast r g).outcome = b.outcome := rfl
  unfold stagesWithin
  simp only [hkind, hcarrier, hranges, houtcome]
  cases l.kind with
  | source | select => rfl
  | generator => cases l.ranges.ids <;> rfl
  | filter =>
    cases b.outcome with
    | none => rfl
    | some encoding => cases beforeSelect <;> rfl
  | define => simp [Except.map, Stage.recast, Body.map, Shape.rename, recast, Function.comp_def]
  | unpack =>
    have hparts : ((b.recast r g).extraction.map Extraction.parts).getD [] =
        (b.extraction.map Extraction.parts).getD [] := by
      unfold Boundary.recast
      cases b.extraction <;> rfl
    simp only [hparts, Carrier.contains_rename]
    rfl

private theorem stages_recast (clause : Nat) (input : Shape) (beforeSelect : Bool) (plan : Plan) :
    (l.recast r g).stages clause (input.rename r) beforeSelect (plan.recast r g) =
      (l.stages clause input beforeSelect plan).map (List.map (Stage.recast r g)) := by
  have hboundary : (plan.recast r g).boundary? clause = (plan.boundary? clause).map (Boundary.recast r g) :=
    List.getElem?_map
  unfold stages
  rw [hboundary]
  cases plan.boundary? clause with
  | none => rfl
  | some b => exact l.stagesWithin_recast r g clause input beforeSelect b

end Link

namespace Chain

variable {r : Renaming} (g : NodeId → NodeId) (pool : Pool) (c : Chain) {names names' : SymbolTable}

private theorem missingReads_recast (h : names.Spells r names') (clause : Nat) (input : Shape)
    (reads : List (BindingId × Span)) :
    (c.recast r g pool).missingReads names' clause (input.rename r) reads =
      c.missingReads names clause input reads := by
  induction reads with
  | nil => rfl
  | cons q reads ih =>
    obtain ⟨id, span⟩ := q
    rw [missingReads, missingReads, Shape.carries_rename, ih, binding?_recast]
    cases c.binding? id with
    | none => rfl
    | some b => simp [Binding.rename, h b.name]

private theorem outputAfter_recast (input : Shape) (stages : List (Stage NodeId)) :
    outputAfter (input.rename r) (stages.map (Stage.recast r g)) = (outputAfter input stages).rename r := by
  unfold outputAfter
  rw [List.getLast?_map]
  cases stages.getLast? <;> rfl

private theorem stagesFrom_recast (h : names.Spells r names') (f : Flow) (plan : Plan) (clause : Nat) (input : Shape)
    (links : List Link) :
    (c.recast r g pool).stagesFrom (f.rename r) (plan.recast r g) names' clause (input.rename r)
        (links.map (Link.recast r g)) =
      (c.stagesFrom f plan names clause input links).map fun s => (s.1.map (Stage.recast r g), s.2) := by
  have hreads : ∀ k, (f.rename r).reads k = f.reads k := by
    intro k
    simp only [Flow.reads, Flow.usesIn, Flow.rename, List.getElem?_map]
    cases f.uses[k]? with
    | none => rfl
    | some us => simp [readsOf, List.filterMap_map, Function.comp_def, Use.rename]
  induction links generalizing clause input with
  | nil => rfl
  | cons l links ih =>
    cases links with
    | nil =>
      rw [List.map_cons, List.map_nil, stagesFrom, stagesFrom, hreads, missingReads_recast g pool c h]
      cases c.missingReads names clause input (f.reads clause) <;> rfl
    | cons l' links =>
      have hlength : (l'.recast r g :: links.map (Link.recast r g)).length = (l' :: links).length := by simp
      rw [List.map_cons, List.map_cons, stagesFrom_two, stagesFrom_two, hreads, missingReads_recast g pool c h, hlength,
        Link.stages_recast]
      rw [List.map_cons] at ih
      cases c.missingReads names clause input (f.reads clause) with
      | none => rfl
      | some missing =>
        cases l.stages clause input ((l' :: links).length == 1) plan with
        | error fault =>
          simp only [Except.map, Option.bind_eq_bind, Option.bind_some, ih]
          cases c.stagesFrom f plan names (clause + 1) input (l' :: links) <;> rfl
        | ok stages =>
          simp only [Except.map, Option.bind_eq_bind, Option.bind_some, outputAfter_recast, ih]
          cases c.stagesFrom f plan names (clause + 1) (outputAfter input stages) (l' :: links) with
          | none => rfl
          | some s => simp

theorem pipeline_recast (h : names.Spells r names') (f : Flow) (plan : Plan) :
    (c.recast r g pool).pipeline (f.rename r) (plan.recast r g) names' =
      (c.pipeline f plan names).map (Pipeline.recast r g pool) := by
  have hboundary : (plan.recast r g).boundary? 0 = (plan.boundary? 0).map (Boundary.recast r g) := List.getElem?_map
  unfold pipeline
  rw [hboundary, links_recast]
  cases c.links with
  | nil => cases plan.boundary? 0 <;> rfl
  | cons source rest =>
    cases plan.boundary? 0 with
    | none => rfl
    | some b =>
      have hstages := stagesFrom_recast g pool c h f plan 1 (.carrier b.carrier) rest
      simp only [Option.map_some, List.map_cons]
      rw [show Shape.carrier (b.recast r g).carrier = (Shape.carrier b.carrier).rename r from rfl, hstages]
      cases c.stagesFrom f plan names 1 (.carrier b.carrier) rest with
      | none => rfl
      | some s =>
        simp only [Option.map_some]
        cases Report.check s.2 <;> rfl

/-! ### From the flow to the pipeline -/

/-- The pipeline of a chain that keeps to all rules with the given flow. -/
def lowerWith (c : Chain) (f : Flow) (names : SymbolTable) (policy : ScopePolicy) :
    Except (Failure Report) Pipeline := do
  c.requireScope f names policy
  f.requireAssigned names
  let plan ← c.plan f
  c.pipeline f plan names

theorem lower_eq_lowerWith (c : Chain) (names : SymbolTable) (policy : ScopePolicy) :
    c.lower names policy = c.flow names >>= fun f => c.lowerWith f names policy := by
  simp only [lower, analyze, lowerWith, bind_assoc, pure_bind]

theorem lowerWith_recast (h : names.Spells r names') (f : Flow) (policy : ScopePolicy) :
    (c.recast r g pool).lowerWith (f.rename r) names' policy =
      (c.lowerWith f names policy).map (Pipeline.recast r g pool) := by
  have hscope : (c.recast r g pool).requireScope (f.rename r) names' policy = c.requireScope f names policy := by
    rw [requireScope, requireScope, scopeFaults_recast g pool c h]
  have hassigned : (f.rename r).requireAssigned names' = f.requireAssigned names :=
    congrArg Report.check (Flow.unassignedFrom_rename h f 0 f.uses)
  unfold lowerWith
  rw [hscope, hassigned, plan_recast]
  cases c.requireScope f names policy with
  | error e => rfl
  | ok u =>
    cases f.requireAssigned names with
    | error e => rfl
    | ok u => exact Except.map_bind fun plan => pipeline_recast g pool c h f plan

private theorem flow_rename (h : names.Spells r names') :
    (c.recast r (fun j => j) pool).flow names' = (c.flow names).map (Flow.rename r) := by
  unfold flow
  rw [ambiguities_recast _ pool c h, facts_recast, uses_rename]
  cases Report.check (c.ambiguities names) <;> rfl

/-- If the ids stay, the pipeline of the renamed chain is the renamed pipeline, and what is reported stays. -/
theorem lower_rename (h : names.Spells r names') (policy : ScopePolicy) :
    (c.recast r (fun j => j) pool).lower names' policy =
      (c.lower names policy).map (Pipeline.recast r (fun j => j) pool) := by
  rw [lower_eq_lowerWith, lower_eq_lowerWith, flow_rename pool c h]
  exact Except.map_bind fun f => lowerWith_recast _ pool c h f policy

end Chain

/-! ### Queries -/

/-- The clauses introduce the same names, up to a renaming, and their expressions are the same once their ids are
changed by `g` and `g'`. -/
structure Clause.Alike (r : Renaming) (g g' : NodeId → NodeId) (pool pool' : Pool) (c c' : Clause) : Prop where
  kind : c'.kind = c.kind
  binder : c'.binder = c.binder.rename r
  ty : c'.ty = c.ty
  span : c'.span = c.span
  isPresent : (c'.expr.isValid && (pool'.get? c'.expr).isSome) = (c.expr.isValid && (pool.get? c.expr).isSome)
  expr : g' c'.expr = g c.expr
  term : (pool'.term? c'.expr).map (Term.recast .refl g') = (pool.term? c.expr).map (Term.recast r g)

section Alike

variable {r : Renaming} {g g' : NodeId → NodeId} {pool pool' : Pool} {c c' : Clause} {cs cs' : List Clause}

private theorem Clause.Alike.rangeVariables_eq (h : c.Alike r g g' pool pool' c') (index : Nat) :
    c'.rangeVariables index = (c.rangeVariables index).map (Binding.rename r) := by
  unfold Clause.rangeVariables
  rw [h.binder, h.ty, h.span]
  cases c.binder with
  | none | one => rfl
  | many xs => simp [Binder.rename, List.zipIdx_map, Function.comp_def, Binding.rename]

private theorem Clause.Alike.grammarFault?_eq (h : c.Alike r g g' pool pool' c') (last index : Nat) :
    c'.grammarFault? pool' last index = c.grammarFault? pool last index := by
  have hfits : c'.binderFits = c.binderFits := by
    unfold Clause.binderFits
    rw [h.binder, h.kind]
    cases c.kind <;> cases c.binder <;> simp [Binder.rename, List.all_map, Function.comp_def]
  have hpresent : (!c'.expr.isValid || (pool'.get? c'.expr).isNone) =
      (!c.expr.isValid || (pool.get? c.expr).isNone) := by
    have hnone : ∀ o : Option Node, o.isNone = !o.isSome := fun o => by cases o <;> rfl
    rw [hnone, hnone, ← Bool.not_and, ← Bool.not_and, h.isPresent]
  unfold Clause.grammarFault?
  rw [h.kind, hfits, hpresent]

private theorem grammarFaultFrom?_alike (h : List.Forall₂ (Clause.Alike r g g' pool pool') cs cs') (last index : Nat) :
    grammarFaultFrom? pool' last index cs' = grammarFaultFrom? pool last index cs := by
  induction h generalizing index with
  | nil => rfl
  | cons hc _ ih => simp only [grammarFaultFrom?, hc.grammarFault?_eq, hc.span, ih]

private theorem linksFrom_alike (h : List.Forall₂ (Clause.Alike r g g' pool pool') cs cs') (index count : Nat) :
    (linksFrom pool' index count cs').map (fun s => (s.1.map (Link.recast .refl g'), s.2)) =
      (linksFrom pool index count cs).map fun s => (s.1.map (Link.recast r g), s.2.map (Binding.rename r)) := by
  induction h generalizing index count with
  | nil => rfl
  | @cons c c' cs cs' hc _ ih =>
    have hterm := hc.term
    rw [linksFrom, linksFrom]
    cases ht : pool.term? c.expr with
    | none =>
      rw [ht, Option.map_none, Option.map_eq_none_iff] at hterm
      rw [hterm]
      rfl
    | some t =>
      rw [ht, Option.map_some, Option.map_eq_some_iff] at hterm
      obtain ⟨t', ht', htree⟩ := hterm
      -- the pattern variables follow the trees
      have hpatterns : t'.patternVariables index = (t.patternVariables index).map (Binding.rename r) := by
        have hvia : t'.patternVariables index = (t'.recast .refl g').patternVariables index := by
          rw [Term.patternVariables_recast]
          exact (List.map_id _).symm
        rw [hvia, htree, Term.patternVariables_recast]
      rw [ht']
      simp only [Option.bind_eq_bind, Option.bind_some, hc.rangeVariables_eq, hpatterns, List.length_map]
      have hrest := ih (index + 1) (count + (c.rangeVariables index).length + (t.patternVariables index).length)
      cases hs : linksFrom pool (index + 1) _ cs with
      | none =>
        rw [hs, Option.map_none, Option.map_eq_none_iff] at hrest
        rw [hrest]
        rfl
      | some s =>
        rw [hs, Option.map_some, Option.map_eq_some_iff] at hrest
        obtain ⟨s', hs', heq⟩ := hrest
        obtain ⟨hlinks, hbindings⟩ := Prod.mk.inj heq
        rw [hs']
        simp [hlinks, hbindings, Link.recast, hc.kind, hc.ty, hc.span, hc.expr, htree]

private theorem Query.grammarFault?_alike {q q' : Query}
    (h : List.Forall₂ (Clause.Alike r g g' q.pool q'.pool) q.clauses q'.clauses) :
    q'.grammarFault? = q.grammarFault? := by
  obtain ⟨pool, cs⟩ := q
  obtain ⟨pool', cs'⟩ := q'
  have hfrom := grammarFaultFrom?_alike h (cs.length - 1) 0
  have hlength : cs'.length = cs.length := h.length_eq.symm
  cases h with
  | nil => rfl
  | cons hc hcs =>
    unfold Query.grammarFault?
    simp only
    rw [hlength]
    exact hfrom

/-- Alike queries fail alike, or have chains that are the same once recast. -/
theorem Query.chain_alike {q q' : Query} (h : List.Forall₂ (Clause.Alike r g g' q.pool q'.pool) q.clauses q'.clauses)
    (pool : Pool) : q'.chain.map (Chain.recast .refl g' pool) = q.chain.map (Chain.recast r g pool) := by
  have hlinks := linksFrom_alike h 0 0
  unfold Query.chain
  rw [Query.grammarFault?_alike h]
  cases q.grammarFault? with
  | some fault => rfl
  | none =>
    simp only
    cases hs : linksFrom q.pool 0 0 q.clauses with
    | none =>
      rw [hs, Option.map_none, Option.map_eq_none_iff] at hlinks
      rw [hlinks]
      rfl
    | some s =>
      rw [hs, Option.map_some, Option.map_eq_some_iff] at hlinks
      obtain ⟨s', hs', heq⟩ := hlinks
      obtain ⟨hlinks, hbindings⟩ := Prod.mk.inj heq
      rw [hs']
      simp [Except.map, Chain.recast, hlinks, hbindings]

end Alike

end QueryPipeline
