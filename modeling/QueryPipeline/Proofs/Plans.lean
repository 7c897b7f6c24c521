import QueryPipeline.Proofs.WellFormed

/-!
# What is planned to be carried

The plan of a chain that keeps the rules has one boundary for each clause but the last.  There are three kinds of them
(`Plan.CarriesLive`).  After the source it is the element.  A filter that binds nothing for later clauses hands on what
it got.  Any other clause makes a carrier of exactly the live variables: those introduced so far that a later clause
uses.
-/

namespace QueryPipeline

/-- Whether the clause at place `k` is a filter that binds no variable for later clauses. -/
def Link.forwards (l : Link) (f : Flow) (k : Nat) : Bool :=
  l.kind == .filter && !l.patterns.ids.any (f.isUsedAfter k)

/-- The carrier holds the variables introduced up to place `k` that a later clause uses, as the table has them and in
the order of the table. -/
structure Carrier.HoldsLive (C : Carrier) (c : Chain) (f : Flow) (k : Nat) : Prop where
  live : ∀ b, b ∈ C.bindings ↔ (∃ l ∈ c.links.take (k + 1), b ∈ l.ids) ∧ f.isUsedAfter k b = true
  increasing : C.bindings.Pairwise fun a b => a.index < b.index
  fields : ∀ fd ∈ C.fields, ∃ bd, c.binding? fd.binding = some bd ∧ fd.name = bd.name ∧ fd.ty = bd.ty

/-- The plan has a boundary for each clause but the last, with what has to be carried there. -/
structure Plan.CarriesLive (plan : Plan) (c : Chain) (f : Flow) : Prop where
  size : plan.size + 1 = c.size
  places : ∀ k bo, plan.boundary? k = some bo → bo.afterClause = k
  source : ∃ first b bd, c.links.head? = some first ∧ first.ranges.ids = [b] ∧ c.binding? b = some bd ∧
    plan.boundary? 0 = some ⟨0, ⟨0, [⟨b, bd.name, bd.ty⟩]⟩, none, none, false⟩
  forwarded : ∀ k l bo before, c.links[k + 1]? = some l → plan.boundary? k = some before →
    plan.boundary? (k + 1) = some bo → l.forwards f (k + 1) = true →
    bo.carrier = before.carrier ∧ bo.outcome = none ∧ bo.isMade = false
  made : ∀ k l bo, 0 < k → c.links[k]? = some l → plan.boundary? k = some bo → l.forwards f k = false →
    bo.isMade = true ∧ bo.carrier.HoldsLive c f k ∧ (bo.outcome.isSome = true ↔ l.kind = .filter)

namespace Chain

variable {c : Chain} {f : Flow} {names : SymbolTable} {policy : ScopePolicy}
variable {before rest : List Link} {l : Link} {plan : Plan}

/-! ### Places by number -/

private theorem At.take_succ (hat : c.At before l rest) : c.links.take (before.length + 1) = (l :: before).reverse := by
  rw [hat.links_cons, List.take_append_of_le_length (by simp), List.take_of_length_le (by simp)]

private theorem At.introduces_iff (hat : c.At before l rest) {b : BindingId} :
    Introduces (l :: before) b ↔ ∃ l' ∈ c.links.take (before.length + 1), b ∈ l'.ids := by
  unfold Introduces
  simp [hat.take_succ, or_comm]

/-! ### What is planned after a clause -/

/-- What can be planned after a clause, given what is carried before it: the same, or the planned carrier. -/
inductive PlannedAs (c : Chain) (before : List Link) (l : Link) (rest : List Link) (C₀ : Carrier) (bo : Boundary) : Prop
  | forward (hk : l.kind = .filter) (hnone : ∀ b ∈ l.ids, ¬ c.ReadIn (l :: before) rest b) (hC : bo.carrier = C₀)
    (hout : bo.outcome = none) (hmade : bo.isMade = false)
  | made (hsome : l.kind = .filter → ∃ b ∈ l.patterns.ids, c.ReadIn (l :: before) rest b)
    (hC : bo.carrier = c.planned before l rest) (hout : bo.outcome.isSome = true ↔ l.kind = .filter)
    (hmade : bo.isMade = true)

private theorem At.boundaryAfter_eq_ok (hat : c.At before l rest) (hc : c.Formed) {C₀ : Carrier} {bo : Boundary}
    (h : c.boundaryAfter before.length C₀ (used (c.readsFrom (l :: before) rest)) l = .ok bo) :
    bo.afterClause = before.length ∧ c.PlannedAs before l rest C₀ bo := by
  unfold boundaryAfter at h
  cases hk : l.kind with
  | source | generator | define | select =>
    simp only [hk] at h
    obtain rfl := Except.ok.inj h
    exact ⟨rfl, .made (by simp [hk]) rfl (by simp [hk]) rfl⟩
  | unpack =>
    simp only [hk] at h
    obtain ⟨ex, -, h⟩ := Except.bind_eq_ok.1 h
    obtain rfl := Except.ok.inj h
    exact ⟨rfl, .made (by simp [hk]) rfl (by simp [hk]) rfl⟩
  | filter =>
    simp only [hk] at h
    split at h
    · rename_i hany
      obtain rfl := Except.ok.inj h
      obtain ⟨b, hb, hread⟩ := List.any_eq_true.1 hany
      exact ⟨rfl, .made (fun _ => ⟨b, hb, List.contains_iff_mem.1 hread⟩) rfl (by simp [hk]) rfl⟩
    · rename_i hany
      obtain rfl := Except.ok.inj h
      refine ⟨rfl, .forward hk (fun b hb hread => hany ?_) rfl rfl rfl⟩
      unfold Link.ids at hb
      rw [hat.ranges_none hc hk, List.nil_append] at hb
      exact List.any_eq_true.2 ⟨b, hb, List.contains_iff_mem.2 hread⟩

private theorem boundariesFrom_at {C₀ : Carrier} {bs : List Boundary} {done later : List Link} {l' : Link}
    (h : c.boundariesFrom before.length C₀
      ((done ++ l :: l' :: later).zip (liveAfter (c.readsFrom before (done ++ l :: l' :: later)))) = .ok bs) :
    ∃ C bo, (C₀ :: bs.map Boundary.carrier)[done.length]? = some C ∧ bs[done.length]? = some bo ∧
      c.boundaryAfter (before.length + done.length) C
        (used (c.readsFrom (l :: (done.reverse ++ before)) (l' :: later))) l = .ok bo := by
  induction done generalizing before C₀ bs with
  | nil =>
    obtain ⟨bo, later', hbo, -, rfl⟩ := boundariesFrom_cons h
    exact ⟨C₀, bo, rfl, rfl, hbo⟩
  | cons d done ih =>
    obtain ⟨e, es, hes⟩ : ∃ e es, done ++ l :: l' :: later = e :: es := List.exists_cons_of_ne_nil (by simp)
    rw [List.cons_append, hes] at h
    obtain ⟨bo, later', -, hlater, rfl⟩ := boundariesFrom_cons h
    rw [← hes] at hlater
    have hlater' : c.boundariesFrom (d :: before).length bo.carrier _ = .ok later' := hlater
    obtain ⟨C, bo', hC, hbo', hafter⟩ := ih hlater'
    refine ⟨C, bo', by simpa using hC, by simpa using hbo', ?_⟩
    rw [List.length_cons, Nat.add_assoc, Nat.add_comm 1] at hafter
    simpa using hafter

private theorem boundariesFrom_length {C₀ : Carrier} {bs : List Boundary} (hne : rest ≠ [])
    (h : c.boundariesFrom before.length C₀ (rest.zip (liveAfter (c.readsFrom before rest))) = .ok bs) :
    bs.length + 1 = rest.length := by
  induction rest generalizing before C₀ bs with
  | nil => exact absurd rfl hne
  | cons l rest ih =>
    cases rest with
    | nil =>
      obtain rfl : [] = bs := Except.ok.inj h
      rfl
    | cons l' rest =>
      obtain ⟨bo, later, -, hlater, rfl⟩ := boundariesFrom_cons h
      have hlater' : c.boundariesFrom (l :: before).length bo.carrier _ = .ok later := hlater
      have hlen := ih (by simp) hlater'
      simp only [List.length_cons] at hlen ⊢
      omega

/-- What is planned after a clause between the source and the selection. -/
theorem KeepsRules.plannedAs (h : c.KeepsRules f names policy) (hplan : c.plan f = .ok plan) (hat : c.At before l rest)
    (hbefore : before ≠ []) (hrest : rest ≠ []) :
    ∃ prev bo, plan.boundary? (before.length - 1) = some prev ∧ plan.boundary? before.length = some bo ∧
      bo.afterClause = before.length ∧ c.PlannedAs before l rest prev.carrier bo := by
  obtain ⟨first, done, hdone⟩ := List.exists_cons_of_ne_nil (List.reverse_ne_nil_iff.2 hbefore)
  obtain ⟨l', later, rfl⟩ := List.exists_cons_of_ne_nil hrest
  have hbefore' : before = done.reverse ++ [first] := by rw [← List.reverse_reverse before, hdone]; simp
  have hfirst : c.At [] first (done ++ l :: l' :: later) := by
    unfold At at hat ⊢
    rw [hat, hdone]
    rfl
  obtain ⟨bs, hbs, hfrom⟩ := h.plan_eq_ok hfirst hplan
  obtain ⟨C, bo, hC, hbo, hafter⟩ := boundariesFrom_at hfrom
  have hlen : before.length = done.length + 1 := by rw [hbefore']; simp
  rw [List.length_singleton, Nat.add_comm 1, ← hlen, ← hbefore'] at hafter
  obtain ⟨hplace, has⟩ := hat.boundaryAfter_eq_ok h.formed hafter
  -- the carriers of the plan are those that the recursion hands on
  have hcarriers : (plan.boundaries.map Boundary.carrier)[done.length]? = some C := by rw [hbs]; exact hC
  rw [List.getElem?_map] at hcarriers
  obtain ⟨prev, hprev, rfl⟩ := Option.map_eq_some_iff.1 hcarriers
  unfold Plan.boundary?
  refine ⟨prev, bo, by rw [hlen]; exact hprev, ?_, hplace, has⟩
  rw [hbs, hlen, List.getElem?_cons_succ]
  exact hbo

private theorem KeepsRules.plan_size (h : c.KeepsRules f names policy) (hplan : c.plan f = .ok plan)
    (hat : c.At [] l rest) : plan.size + 1 = c.size := by
  obtain ⟨bs, hbs, hfrom⟩ := h.plan_eq_ok hat hplan
  have hlen := boundariesFrom_length (hat.rest_ne_nil h.formed) hfrom
  have hlinks : c.links = l :: rest := hat
  unfold Plan.size Chain.size
  rw [hbs, hlinks, List.length_cons, List.length_cons, hlen]

/-- Every boundary behind the source's is planned after a clause between the source and the selection. -/
theorem KeepsRules.boundary_at (h : c.KeepsRules f names policy) (hplan : c.plan f = .ok plan) {first : Link}
    {others : List Link} (hfirst : c.At [] first others) {k : Nat} {bo : Boundary} (hk : 0 < k)
    (hbo : plan.boundary? k = some bo) :
    ∃ before l rest prev, c.At before l rest ∧ before.length = k ∧ plan.boundary? (k - 1) = some prev ∧
      bo.afterClause = k ∧ c.PlannedAs before l rest prev.carrier bo := by
  have hsize := h.plan_size hplan hfirst
  have hlt : k < plan.size := (List.getElem?_eq_some_iff.1 hbo).1
  unfold Chain.size at hsize
  obtain ⟨before, rest, hat, hlen⟩ := exists_at (List.getElem?_eq_getElem (show k < c.links.length by omega))
  have hbefore : before ≠ [] := by
    rintro rfl
    exact absurd hlen (by simp; omega)
  have hrest : rest ≠ [] := by
    rintro rfl
    have hlinks := congrArg List.length hat
    simp only [List.length_append, List.length_reverse, List.length_cons, List.length_nil] at hlinks
    omega
  obtain ⟨prev, bo', hprev, hbo', hplace, has⟩ := h.plannedAs hplan hat hbefore hrest
  subst hlen
  obtain rfl := Option.mem_unique hbo hbo'
  exact ⟨before, _, rest, prev, hat, rfl, hprev, hplace, has⟩

theorem KeepsRules.boundary_zero (h : c.KeepsRules f names policy) (hplan : c.plan f = .ok plan)
    (hat : c.At [] l rest) :
    plan.boundary? 0 = some ⟨0, c.carrierOf 0 [⟨l.ranges.start⟩], none, none, false⟩ := by
  obtain ⟨bs, hbs, -⟩ := h.plan_eq_ok hat hplan
  unfold Plan.boundary?
  rw [hbs]
  rfl

/-- What is planned after the source is its variable. -/
theorem KeepsRules.boundary_source (h : c.KeepsRules f names policy) (hplan : c.plan f = .ok plan)
    (hat : c.At [] l rest) :
    ∃ b bd, l.ranges.ids = [b] ∧ c.binding? b = some bd ∧ bd.clause = 0 ∧
      plan.boundary? 0 = some ⟨0, ⟨0, [⟨b, bd.name, bd.ty⟩]⟩, none, none, false⟩ := by
  obtain ⟨cl, -, -, hsource, -⟩ := h.formed _ _ _ hat
  have hone := hat.ranges_one h.formed (Or.inl (hsource.2 rfl))
  obtain ⟨bd, hbd, -, hclause, -⟩ := hat.range_id h.formed (show ⟨l.ranges.start⟩ ∈ l.ranges.ids by rw [hone]; simp)
  refine ⟨_, bd, hone, hbd, hclause, ?_⟩
  rw [h.boundary_zero hplan hat]
  simp [carrierOf, hbd]

/-! ### Live variables -/

private theorem carrierOf_sublist (c : Chain) (k : Nat) (ids : List BindingId) :
    (c.carrierOf k ids).bindings.Sublist ids := by
  unfold carrierOf Carrier.bindings
  induction ids with
  | nil => simp
  | cons id ids ih =>
    cases hbd : c.binding? id with
    | none => simpa [hbd] using ih.cons id
    | some bd => simpa [hbd] using ih.cons_cons id

private theorem KeepsRules.planned_holdsLive (h : c.KeepsRules f names policy) (hat : c.At before l rest) :
    (c.planned before l rest).HoldsLive c f before.length where
  live b := by
    rw [h.isUsedAfter_iff hat, ← hat.introduces_iff, ← h.planned_contains hat, Carrier.contains_iff]
    exact List.mem_map
  increasing := (used_pairwise _).sublist ((carrierOf_sublist ..).trans List.filter_sublist)
  fields fd hfd := ((h.mem_planned hat).1 hfd).2.2

/-- A filter forwards if no later clause uses a variable that it introduces. -/
theorem KeepsRules.forwards_iff (h : c.KeepsRules f names policy) (hat : c.At before l rest) :
    l.forwards f before.length = true ↔ l.kind = .filter ∧ ∀ b ∈ l.patterns.ids, ¬ c.ReadIn (l :: before) rest b := by
  unfold Link.forwards
  simp [← h.isUsedAfter_iff hat]

private theorem PlannedAs.of_forwards (h : c.KeepsRules f names policy) (hat : c.At before l rest) {C₀ : Carrier}
    {bo : Boundary} (has : c.PlannedAs before l rest C₀ bo) (hforward : l.forwards f before.length = true) :
    bo.carrier = C₀ ∧ bo.outcome = none ∧ bo.isMade = false := by
  obtain ⟨hk, hnone⟩ := (h.forwards_iff hat).1 hforward
  cases has with
  | forward _ _ hC hout hmade => exact ⟨hC, hout, hmade⟩
  | made hsome =>
    obtain ⟨b, hb, hread⟩ := hsome hk
    exact absurd hread (hnone b hb)

private theorem PlannedAs.of_not_forwards (h : c.KeepsRules f names policy) (hat : c.At before l rest) {C₀ : Carrier}
    {bo : Boundary} (has : c.PlannedAs before l rest C₀ bo) (hforward : l.forwards f before.length = false) :
    bo.isMade = true ∧ bo.carrier.HoldsLive c f before.length ∧ (bo.outcome.isSome = true ↔ l.kind = .filter) := by
  cases has with
  | forward hk hnone =>
    rw [(h.forwards_iff hat).2 ⟨hk, fun b hb => hnone b (List.mem_append_right _ hb)⟩] at hforward
    cases hforward
  | made _ hC hout hmade =>
    rw [hC]
    exact ⟨hmade, h.planned_holdsLive hat, hout⟩

end Chain

/-- The plan of a chain that passes the checks carries exactly the live variables. -/
theorem Query.plan_carriesLive {q : Query} {c : Chain} {names : SymbolTable} {policy : ScopePolicy} {f : Flow}
    {plan : Plan} (hc : q.chain = .ok c) (h : c.analyze names policy = .ok (f, plan)) : plan.CarriesLive c f := by
  obtain ⟨hflow, hscope, hassigned, hplan⟩ := Chain.analyze_eq_ok.1 h
  have hrules := keepsRules hc hflow hscope hassigned
  obtain ⟨first, rest, hfirst⟩ := chain_cons hc
  obtain ⟨b, bd, hone, hbd, -, hsource⟩ := hrules.boundary_source hplan hfirst
  refine ⟨hrules.plan_size hplan hfirst, fun k bo hbo => ?_, ⟨first, b, bd, ?_, hone, hbd, hsource⟩,
    fun k l bo prev hl hprev hbo hforward => ?_, fun k l bo hk hl hbo hforward => ?_⟩
  · rcases Nat.eq_zero_or_pos k with rfl | hk
    · rw [hsource] at hbo
      rw [← Option.some.inj hbo]
    · obtain ⟨-, -, -, -, -, -, -, hplace, -⟩ := hrules.boundary_at hplan hfirst hk hbo
      exact hplace
  · rw [show c.links = first :: rest from hfirst]
    rfl
  · obtain ⟨before, l', rest', prev', hat, hlen, hprev', -, has⟩ := hrules.boundary_at hplan hfirst (by omega) hbo
    obtain rfl := Option.mem_unique hprev hprev'
    rw [← hlen] at hl hforward
    obtain rfl := Option.mem_unique hl hat.getElem?
    exact has.of_forwards hrules hat hforward
  · obtain ⟨before, l', rest', prev, hat, rfl, -, -, has⟩ := hrules.boundary_at hplan hfirst hk hbo
    obtain rfl := Option.mem_unique hl hat.getElem?
    exact has.of_not_forwards hrules hat hforward

/-- A filter that binds nothing and one that binds a variable for the selection:
`from x in [7] let y = x where y > 0 where x is int i select x + i`. -/
def Query.twoFilters : Query where
  pool :=
    { nodes := #[⟨.literal (.int 7), ⟨0, 1⟩⟩, ⟨.row .list ⟨0, 1⟩, ⟨2, 3⟩⟩, ⟨.ident ⟨1⟩, ⟨4, 5⟩⟩,
        ⟨.ident ⟨2⟩, ⟨6, 7⟩⟩, ⟨.literal (.int 0), ⟨8, 9⟩⟩, ⟨.operator .gt ⟨3⟩ ⟨4⟩, ⟨10, 11⟩⟩, ⟨.ident ⟨1⟩, ⟨12, 13⟩⟩,
        ⟨.test (.hasType .int) ⟨6⟩ ⟨3⟩, ⟨14, 15⟩⟩, ⟨.ident ⟨1⟩, ⟨16, 17⟩⟩, ⟨.ident ⟨3⟩, ⟨18, 19⟩⟩,
        ⟨.operator .add ⟨8⟩ ⟨9⟩, ⟨20, 21⟩⟩]
      lists := #[⟨0⟩] }
  clauses :=
    [⟨.source, ⟨1⟩, .one ⟨1⟩, .object, ⟨0, 1⟩⟩, ⟨.define, ⟨2⟩, .one ⟨2⟩, .object, ⟨0, 1⟩⟩,
      ⟨.filter, ⟨5⟩, .none, .bool, ⟨0, 1⟩⟩, ⟨.filter, ⟨7⟩, .none, .bool, ⟨0, 1⟩⟩,
      ⟨.select, ⟨10⟩, .none, .int, ⟨0, 1⟩⟩]

/-- The spellings of its names. -/
def Query.twoFilterNames : SymbolTable := ⟨#["", "x", "y", "i"]⟩

theorem Query.twoFilters_plan_carriesLive : ∃ c f plan, Query.twoFilters.chain = .ok c ∧
    c.analyze Query.twoFilterNames .unique = .ok (f, plan) ∧ plan.CarriesLive c f ∧
    plan.boundaries.map (fun bo => (bo.carrier.bindings, bo.isMade, bo.outcome)) =
      [([⟨0⟩], false, none), ([⟨0⟩, ⟨1⟩], true, none), ([⟨0⟩, ⟨1⟩], false, none),
        ([⟨0⟩, ⟨2⟩], true, some .elided)] := by
  have hrun : (Query.twoFilters.chain >>= fun c => c.analyze Query.twoFilterNames .unique).toOption.map
      (fun r => r.2.boundaries.map fun bo => (bo.carrier.bindings, bo.isMade, bo.outcome)) =
      some [([⟨0⟩], false, none), ([⟨0⟩, ⟨1⟩], true, none), ([⟨0⟩, ⟨1⟩], false, none),
        ([⟨0⟩, ⟨2⟩], true, some .elided)] := by cbv
  cases hr : Query.twoFilters.chain >>= fun c => c.analyze Query.twoFilterNames .unique with
  | error e =>
    rw [hr] at hrun
    cases hrun
  | ok r =>
    rw [hr] at hrun
    obtain ⟨c, hc, h⟩ := Except.bind_eq_ok.1 hr
    exact ⟨c, r.1, r.2, hc, h, Query.plan_carriesLive hc h, Option.some.inj hrun⟩

end QueryPipeline
