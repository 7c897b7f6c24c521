import QueryPipeline.Proofs.Plans
import QueryPipeline.Proofs.Rejections

/-!
# Plans that carry too little

A variable is dropped from what is planned after a clause.  If the carrier is made there, the variable does not come
back: later carriers are made of what comes in and of what their own clause introduces.  So from there on exactly this
variable is missing, whatever the clauses between do with the others (`Chain.CarriesBut`), and each of its uses is
reported.  A filter that hands on what it got does not look at its plan.
-/

namespace QueryPipeline

/-! ### Uses without a value -/

/-- The complaints about the uses of a variable by the clause at place `k`, in the order of the uses. -/
def Flow.lostIn (f : Flow) (names : SymbolTable) (fd : Field) (k : Nat) : List Rejection :=
  ((f.usesIn k).filter fun u => u.resolution == .earlier fd.binding).map fun u =>
    ⟨k, u.span, .unassigned (names.spelling fd.name)⟩

/-- The complaints about the uses of a variable by the clauses from place `k` on, clause by clause. -/
def Flow.lostFrom (f : Flow) (names : SymbolTable) (fd : Field) (k : Nat) : List Rejection :=
  (List.range' k (f.uses.length - k)).flatMap (f.lostIn names fd)

namespace Flow

variable {f : Flow} {names : SymbolTable} {fd : Field} {k : Nat}

private theorem lostFrom_eq_nil (h : f.uses.length ≤ k) : f.lostFrom names fd k = [] := by
  unfold lostFrom
  rw [Nat.sub_eq_zero_of_le h]
  rfl

private theorem lostFrom_succ (f : Flow) (names : SymbolTable) (fd : Field) (k : Nat) :
    f.lostFrom names fd k = f.lostIn names fd k ++ f.lostFrom names fd (k + 1) := by
  by_cases hk : k < f.uses.length
  · unfold lostFrom
    rw [show f.uses.length - k = (f.uses.length - (k + 1)) + 1 by omega, List.range'_succ, List.flatMap_cons]
  · have hnone : f.lostIn names fd k = [] := by
      unfold lostIn Flow.usesIn
      rw [List.getElem?_eq_none (by omega)]
      rfl
    rw [lostFrom_eq_nil (by omega), lostFrom_eq_nil (by omega), hnone, List.append_nil]

private theorem isUsedAfter_iff_usesIn {b : BindingId} :
    f.isUsedAfter k b = true ↔ ∃ j, k < j ∧ j < f.uses.length ∧ ∃ u ∈ f.usesIn j, u.resolution = .earlier b := by
  unfold isUsedAfter usesIn
  simp only [List.any_eq_true, beq_iff_eq]
  constructor
  · rintro ⟨us, hus, hread⟩
    obtain ⟨i, hi⟩ := List.mem_iff_getElem?.1 hus
    rw [List.getElem?_drop] at hi
    refine ⟨k + 1 + i, by omega, (List.getElem?_eq_some_iff.1 hi).1, ?_⟩
    rw [hi]
    exact hread
  · rintro ⟨j, hk, hj, hread⟩
    rw [List.getElem?_eq_getElem hj, Option.getD_some] at hread
    refine ⟨f.uses[j], List.mem_iff_getElem?.2 ⟨j - (k + 1), ?_⟩, hread⟩
    rw [List.getElem?_drop, show k + 1 + (j - (k + 1)) = j by omega, List.getElem?_eq_getElem hj]

/-- There is nothing to complain about if no later clause uses the variable. -/
theorem lostFrom_eq_nil_iff : f.lostFrom names fd (k + 1) = [] ↔ f.isUsedAfter k fd.binding = false := by
  rw [← Bool.not_eq_true, isUsedAfter_iff_usesIn]
  unfold lostFrom lostIn
  simp only [List.flatMap_eq_nil_iff, List.map_eq_nil_iff, List.filter_eq_nil_iff, List.mem_range'_1, beq_iff_eq]
  constructor
  · rintro hnone ⟨j, hk, hj, u, hu, hread⟩
    exact hnone j ⟨hk, by omega⟩ u hu hread
  · rintro hnone j ⟨hk, hj⟩ u hu hread
    exact hnone ⟨j, hk, by omega, u, hu, hread⟩

end Flow

/-! ### Plans without a variable -/

private theorem Plan.boundary?_drop (plan : Plan) (k j : Nat) (b : BindingId) :
    (plan.drop k b).2.boundary? j = (plan.boundary? j).map fun bo => if k = j then bo.drop b else bo := by
  unfold Plan.drop Plan.boundary?
  rw [List.getElem?_modify]
  rfl

private theorem Plan.boundary?_drop_of_ne {plan : Plan} {k j : Nat} {b : BindingId} (h : k ≠ j) :
    (plan.drop k b).2.boundary? j = plan.boundary? j := by
  rw [boundary?_drop]
  simp [h]

private theorem Boundary.contains_drop {bo : Boundary} {b b' : BindingId} :
    (bo.drop b).carrier.contains b' = true ↔ bo.carrier.contains b' = true ∧ b' ≠ b := by
  simp only [Carrier.contains_iff, Boundary.drop, List.mem_filter, bne_iff_ne]
  constructor
  · rintro ⟨fd, ⟨hfd, hne⟩, rfl⟩
    exact ⟨⟨fd, hfd, rfl⟩, hne⟩
  · rintro ⟨⟨fd, hfd, rfl⟩, hne⟩
    exact ⟨fd, ⟨hfd, hne⟩, rfl⟩

/-- What is left of a boundary when a binding is dropped at place `k`. -/
theorem Plan.exists_boundary_drop {plan : Plan} {j : Nat} {bo : Boundary} (h : plan.boundary? j = some bo) (k : Nat)
    (b : BindingId) :
    ∃ bo', (plan.drop k b).2.boundary? j = some bo' ∧ bo'.outcome = bo.outcome ∧
      ∀ b', bo'.carrier.contains b' = true ↔ bo.carrier.contains b' = true ∧ ¬ (b' = b ∧ k = j) := by
  refine ⟨_, by rw [boundary?_drop, h, Option.map_some], ?_⟩
  split
  · rename_i hk
    exact ⟨rfl, fun b' => by simp [Boundary.contains_drop, hk]⟩
  · rename_i hk
    exact ⟨rfl, fun b' => by simp [hk]⟩

private theorem Link.contains_carrierWithin {l : Link} {input : Shape} {C : Carrier} {b : BindingId} :
    (l.carrierWithin input C).contains b = true ↔
      C.contains b = true ∧ (b ∈ l.ids ∨ input.carrier?.any (·.contains b) = true) := by
  simp only [Carrier.contains_iff, Link.carrierWithin, List.mem_filter, Bool.or_eq_true, List.contains_iff_mem]
  constructor
  · rintro ⟨fd, ⟨hfd, hfrom⟩, rfl⟩
    exact ⟨⟨fd, hfd, rfl⟩, hfrom⟩
  · rintro ⟨⟨fd, hfd, rfl⟩, hfrom⟩
    exact ⟨fd, ⟨hfd, hfrom⟩, rfl⟩

/-- A filter for which no outcome is planned does not look at its plan. -/
theorem Link.stagesWithin_forward {l : Link} {bo : Boundary} (hk : l.kind = .filter) (hout : bo.outcome = none)
    (clause : Nat) (input : Shape) (beforeSelect : Bool) :
    l.stagesWithin clause input beforeSelect bo = .ok [⟨.filter, input, input, .predicate l.expr, clause⟩] := by
  unfold Link.stagesWithin
  simp only [hk, hout]

namespace Chain

variable {c : Chain} {f : Flow} {names : SymbolTable} {policy : ScopePolicy}
variable {before rest : List Link} {l : Link} {plan : Plan} {input : Shape} {fd : Field} {k : Nat}

/-- A clause between the source and the selection has stages for whatever is planned.  What comes out of them is what
came in, or what can be made of the plan. -/
theorem At.exists_stagesWithin (hat : c.At before l rest) (hc : c.Formed) (hsource : l.kind ≠ .source)
    (hselect : l.kind ≠ .select) (input : Shape) (beforeSelect : Bool) (bo : Boundary) :
    ∃ stages, l.stagesWithin before.length input beforeSelect bo = .ok stages ∧
      (outputAfter input stages).carrier? =
        if l.kind = .filter ∧ bo.outcome = none then input.carrier? else some (l.carrierWithin input bo.carrier) := by
  unfold Link.stagesWithin
  cases hk : l.kind with
  | source => exact absurd hk hsource
  | select => exact absurd hk hselect
  | generator =>
    rw [hat.ranges_one hc (Or.inr (Or.inl hk))]
    exact ⟨_, rfl, rfl⟩
  | define | unpack => exact ⟨_, rfl, rfl⟩
  | filter =>
    cases hout : bo.outcome with
    | none => exact ⟨_, rfl, rfl⟩
    | some encoding =>
      refine ⟨_, rfl, ?_⟩
      cases beforeSelect <;> rfl

/-- If one variable does not come in, its uses are reported. -/
theorem missingReads_eq {j : Nat} {us : List Use} {bd : Binding} (hbd : c.binding? fd.binding = some bd)
    (hname : fd.name = bd.name)
    (h : ∀ r ∈ readsOf us, input.carrier?.any (·.contains r.1) = true ↔ r.1 ≠ fd.binding) :
    c.missingReads names j input (readsOf us) =
      some ((us.filter fun u => u.resolution == .earlier fd.binding).map fun u =>
        ⟨j, u.span, .unassigned (names.spelling fd.name)⟩) := by
  induction us with
  | nil => rfl
  | cons u us ih =>
    cases hres : u.resolution with
    | earlier b =>
      have hcons : readsOf (u :: us) = (b, u.span) :: readsOf us := by simp [readsOf, hres]
      rw [hcons] at h ⊢
      have hlater := ih fun r hr => h r (List.mem_cons_of_mem _ hr)
      have hhere : input.carrier?.any (·.contains b) = true ↔ b ≠ fd.binding := h (b, u.span) (by simp)
      rw [missingReads]
      by_cases hb : b = fd.binding
      · subst hb
        rw [if_neg (fun hin => hhere.1 hin rfl), hbd, hlater]
        simp [hname, hres]
      · rw [if_pos (hhere.2 hb), hlater]
        simp [hres, hb]
    | sameClause b | outer =>
      have hcons : readsOf (u :: us) = readsOf us := by simp [readsOf, hres]
      rw [hcons] at h ⊢
      rw [ih h]
      simp [hres]

/-! ### What comes in -/

/-- The carrier planned after place `k` is the source's or is made there, and it carries the variable. -/
structure Drops (c : Chain) (f : Flow) (names : SymbolTable) (policy : ScopePolicy) (plan : Plan) (k : Nat)
    (fd : Field) : Prop where
  rules : c.KeepsRules f names policy
  planned : c.plan f = .ok plan
  binding : ∃ bd, c.binding? fd.binding = some bd ∧ fd.name = bd.name ∧ bd.clause ≤ k
  made : ∀ bo, plan.boundary? k = some bo → k = 0 ∨ bo.isMade = true

/-- All that the clauses `rest` use comes in, except for the binding once place `k` is behind. -/
def CarriesBut (c : Chain) (k : Nat) (b : BindingId) (before rest : List Link) (input : Shape) : Prop :=
  ∀ b', c.ReadIn before rest b' → Introduces before b' →
    (input.carrier?.any (·.contains b') = true ↔ ¬ (b' = b ∧ k < before.length))

/-- A clause after place `k` does not introduce the variable. -/
theorem Drops.not_mem_ids (h : c.Drops f names policy plan k fd) (hat : c.At before l rest) (hk : k < before.length) :
    fd.binding ∉ l.ids := by
  intro hid
  obtain ⟨bd, hbd, -, hle⟩ := h.binding
  obtain ⟨bd', hbd', hclause, -⟩ := hat.id h.rules.formed hid
  obtain rfl := Option.mem_unique hbd hbd'
  omega

/-- The uses that a clause lacks are those of the variable, once place `k` is behind. -/
theorem Drops.missingReads_eq (h : c.Drops f names policy plan k fd) (hat : c.At before l rest)
    (hin : c.CarriesBut k fd.binding before (l :: rest) input) :
    c.missingReads names before.length input (f.reads before.length) =
      some (if k < before.length then f.lostIn names fd before.length else []) := by
  obtain ⟨bd, hbd, hname, -⟩ := h.binding
  split
  · rename_i hk
    refine Chain.missingReads_eq hbd hname fun r hr => ?_
    obtain ⟨hread, hint⟩ := h.rules.readIn_of_mem_reads hat hr
    simpa [hk] using hin r.1 hread hint
  · rename_i hk
    refine missingReads_eq_nil fun r hr => ?_
    obtain ⟨hread, hint⟩ := h.rules.readIn_of_mem_reads hat hr
    exact (hin r.1 hread hint).2 fun hlost => hk hlost.2

/-- What a clause introduces or gets among the variables that later clauses use: all but the one that is missing. -/
theorem Drops.has_iff (h : c.Drops f names policy plan k fd) (hat : c.At before l rest)
    (hin : c.CarriesBut k fd.binding before (l :: rest) input) {b : BindingId} (hread : c.ReadIn (l :: before) rest b)
    (hint : Introduces (l :: before) b) :
    (b ∈ l.ids ∨ input.carrier?.any (·.contains b) = true) ↔ ¬ (b = fd.binding ∧ k < before.length) := by
  constructor
  · rintro hhas ⟨rfl, hk⟩
    have hnot := h.not_mem_ids hat hk
    obtain ⟨l', hl', hid⟩ := hint
    rcases List.mem_cons.1 hl' with rfl | hl'
    · exact hnot hid
    · exact (hin _ (readIn_cons.2 (Or.inr hread)) ⟨l', hl', hid⟩).1 (hhas.resolve_left hnot) ⟨rfl, hk⟩
  · intro hkept
    obtain ⟨l', hl', hid⟩ := hint
    rcases List.mem_cons.1 hl' with rfl | hl'
    · exact Or.inl hid
    · exact Or.inr ((hin _ (readIn_cons.2 (Or.inr hread)) ⟨l', hl', hid⟩).2 hkept)

/-- A clause none of whose variables is used later hands on what it got. -/
theorem CarriesBut.forward {b : BindingId} {output : Shape} (hin : c.CarriesBut k b before (l :: rest) input)
    (hne : k ≠ before.length) (hnone : ∀ b ∈ l.ids, ¬ c.ReadIn (l :: before) rest b)
    (hout : output.carrier? = input.carrier?) : c.CarriesBut k b (l :: before) rest output := by
  intro b' hread hint
  have hreached : k < before.length + 1 ↔ k < before.length := by omega
  rw [hout, List.length_cons, hreached]
  obtain ⟨l', hl', hid⟩ := hint
  rcases List.mem_cons.1 hl' with rfl | hl'
  · exact absurd hread (hnone b' hid)
  · exact hin b' (readIn_cons.2 (Or.inr hread)) ⟨l', hl', hid⟩

/-- A carrier made of what is planned lacks the variable if the plan does or if it does not come in. -/
theorem Drops.carriesBut_made (h : c.Drops f names policy plan k fd) (hat : c.At before l rest) {C : Carrier}
    {output : Shape} (hin : c.CarriesBut k fd.binding before (l :: rest) input)
    (hC : ∀ b, C.contains b = true ↔
      (c.planned before l rest).contains b = true ∧ ¬ (b = fd.binding ∧ k = before.length))
    (hout : output.carrier? = some (l.carrierWithin input C)) :
    c.CarriesBut k fd.binding (l :: before) rest output := by
  intro b hread hint
  have hplanned : (c.planned before l rest).contains b = true := (h.rules.planned_contains hat).2 ⟨hint, hread⟩
  have hreached : k < before.length + 1 ↔ k = before.length ∨ k < before.length := by omega
  rw [hout, Option.any_some, Link.contains_carrierWithin, hC, h.has_iff hat hin hread hint, and_iff_right hplanned,
    List.length_cons, hreached, and_or_left, not_or]

/-- A clause hands on all that later clauses use, but the variable once place `k` is reached. -/
theorem Drops.step (h : c.Drops f names policy plan k fd) {l' : Link} (hat : c.At before l (l' :: rest))
    (hbefore : before ≠ []) (hin : c.CarriesBut k fd.binding before (l :: l' :: rest) input) (beforeSelect : Bool) :
    ∃ stages, l.stages before.length input beforeSelect (plan.drop k fd.binding).2 = .ok stages ∧
      c.CarriesBut k fd.binding (l :: before) (l' :: rest) (outputAfter input stages) := by
  obtain ⟨hsource, hselect⟩ := hat.kind_within h.rules.formed hbefore
  obtain ⟨prev, bo, -, hbo, -, has⟩ := h.rules.plannedAs h.planned hat hbefore (List.cons_ne_nil _ _)
  obtain ⟨bo', hbo', houtcome, hcontains⟩ := Plan.exists_boundary_drop hbo k fd.binding
  obtain ⟨stages, hstages, hout⟩ := hat.exists_stagesWithin h.rules.formed hsource hselect input beforeSelect bo'
  unfold Link.stages
  rw [hbo']
  rw [houtcome] at hout
  refine ⟨stages, hstages, ?_⟩
  cases has with
  | forward hk hnone _ hnoOutcome hmade =>
    -- the carrier at place `k` is made, so this is another place
    have hne : k ≠ before.length := by
      rintro rfl
      rcases h.made bo hbo with h0 | hmade'
      · exact hbefore (List.length_eq_zero_iff.1 h0)
      · rw [hmade] at hmade'
        cases hmade'
    rw [if_pos ⟨hk, hnoOutcome⟩] at hout
    exact hin.forward hne hnone hout
  | made _ hC hsome _ =>
    have hguard : ¬ (l.kind = .filter ∧ bo.outcome = none) := by
      rintro ⟨hk, hnone⟩
      have hisSome := hsome.2 hk
      rw [hnone] at hisSome
      cases hisSome
    rw [if_neg hguard] at hout
    rw [hC] at hcontains
    exact h.carriesBut_made hat hin hcontains hout

/-! ### Runs of the translation -/

/-- The translation with the variable dropped reports its uses from place `k` on, and nothing else. -/
theorem Drops.stagesFrom_eq (h : c.Drops f names policy plan k fd) (hne : rest ≠ []) (hbefore : before ≠ [])
    (hlinks : c.links = before.reverse ++ rest) (hin : c.CarriesBut k fd.binding before rest input) :
    ∃ stages, c.stagesFrom f (plan.drop k fd.binding).2 names before.length input rest =
      some (stages, f.lostFrom names fd (max before.length (k + 1))) := by
  induction rest generalizing before input with
  | nil => exact absurd rfl hne
  | cons l rest ih =>
    have hat : c.At before l rest := hlinks
    have hmissing := h.missingReads_eq hat hin
    have hlost : f.lostFrom names fd (max before.length (k + 1)) =
        (if k < before.length then f.lostIn names fd before.length else []) ++
          f.lostFrom names fd (max (before.length + 1) (k + 1)) := by
      split
      · rw [Nat.max_eq_left (by omega), Nat.max_eq_left (by omega)]
        exact f.lostFrom_succ names fd before.length
      · rw [Nat.max_eq_right (by omega), Nat.max_eq_right (by omega)]
        rfl
    cases rest with
    | nil =>
      have hend : f.uses.length ≤ before.length + 1 := List.drop_eq_nil_iff.1 (h.rules.uses_drop hat)
      rw [hlost, Flow.lostFrom_eq_nil (Nat.le_trans hend (Nat.le_max_left _ _)), List.append_nil]
      refine ⟨[l.selection before.length input], ?_⟩
      rw [stagesFrom, hmissing]
      rfl
    | cons l' rest =>
      obtain ⟨stages, hstages, hout⟩ := h.step hat hbefore hin ((l' :: rest).length == 1)
      obtain ⟨later, hlater⟩ := ih (List.cons_ne_nil _ _) (List.cons_ne_nil l before) hat.links_cons hout
      rw [List.length_cons] at hlater
      refine ⟨stages ++ later, ?_⟩
      rw [stagesFrom_two, hmissing, hstages, hlost]
      simp only [hlater, Option.bind_eq_bind, Option.bind_some]

/-- With the variable dropped the translation fails by the complaints about its later uses, if there are any. -/
theorem Drops.pipeline_eq (h : c.Drops f names policy plan k fd) (hat : c.At [] l rest) :
    ∃ p, c.pipeline f (plan.drop k fd.binding).2 names =
      Report.check (f.lostFrom names fd (k + 1)) >>= fun _ => .ok p := by
  obtain ⟨bo, hbo, -, hcontains⟩ := Plan.exists_boundary_drop (h.rules.boundary_zero h.planned hat) k fd.binding
  have hin : c.CarriesBut k fd.binding [l] rest (.carrier bo.carrier) := by
    intro b hread hint
    have hfull := (h.rules.carries_source hat).complete b hread hint
    rw [show (Shape.carrier bo.carrier).carrier? = some bo.carrier from rfl, Option.any_some, hcontains,
      List.length_singleton, Nat.lt_one_iff]
    exact and_iff_right hfull
  obtain ⟨stages, hstages⟩ := h.stagesFrom_eq (hat.rest_ne_nil h.rules.formed) (List.cons_ne_nil l [])
    hat.links_cons hin
  rw [List.length_singleton, Nat.max_eq_right (by omega)] at hstages
  refine ⟨⟨c.pool, l.expr, bo.carrier, stages⟩, ?_⟩
  unfold pipeline
  rw [hbo, show c.links = l :: rest from hat]
  simp only [hstages]
  rfl

/-! ### Filters that hand on what they got -/

/-- Plans with the same stages for each clause give the same translation. -/
theorem stagesFrom_congr {reduced : Plan}
    (h : ∀ before l rest, c.At before l rest → ∀ input beforeSelect,
      l.stages before.length input beforeSelect reduced = l.stages before.length input beforeSelect plan)
    (hlinks : c.links = before.reverse ++ rest) (input : Shape) :
    c.stagesFrom f reduced names before.length input rest = c.stagesFrom f plan names before.length input rest := by
  induction rest generalizing before input with
  | nil => rfl
  | cons l rest ih =>
    have hat : c.At before l rest := hlinks
    cases rest with
    | nil => rfl
    | cons l' rest =>
      have hlater := ih hat.links_cons
      rw [List.length_cons] at hlater
      rw [stagesFrom_two, stagesFrom_two, h before l _ hat]
      simp only [hlater]

/-- What is planned after a filter that hands on what it got makes no difference to the stages of any clause. -/
theorem KeepsRules.stages_drop_forward (h : c.KeepsRules f names policy) (hplan : c.plan f = .ok plan) {first : Link}
    {others : List Link} (hfirst : c.At [] first others) {bo : Boundary} (hk : 0 < k)
    (hbo : plan.boundary? k = some bo) (hmade : bo.isMade = false) (b : BindingId) (hat : c.At before l rest)
    (input : Shape) (beforeSelect : Bool) :
    l.stages before.length input beforeSelect (plan.drop k b).2 =
      l.stages before.length input beforeSelect plan := by
  unfold Link.stages
  by_cases hj : k = before.length
  · obtain ⟨before', l', rest', prev, hat', hlen, -, -, has⟩ := h.boundary_at hplan hfirst hk hbo
    have hget := hat'.getElem?
    rw [hlen, hj] at hget
    obtain rfl := Option.mem_unique hat.getElem? hget
    obtain ⟨bo', hbo', hout, -⟩ := Plan.exists_boundary_drop hbo k b
    rw [← hj, hbo', hbo]
    cases has with
    | forward hfilter _ _ hnone _ =>
      simp only [Link.stagesWithin_forward hfilter hnone, Link.stagesWithin_forward hfilter (hout.trans hnone)]
    | made _ _ _ hmade' =>
      rw [hmade] at hmade'
      cases hmade'
  · rw [Plan.boundary?_drop_of_ne hj]

private theorem KeepsRules.pipeline_drop_forward (h : c.KeepsRules f names policy) (hplan : c.plan f = .ok plan)
    (hat : c.At [] l rest) {bo : Boundary} (hk : 0 < k) (hbo : plan.boundary? k = some bo) (hmade : bo.isMade = false)
    (b : BindingId) : c.pipeline f (plan.drop k b).2 names = c.pipeline f plan names := by
  have hrun : ∀ input, c.stagesFrom f (plan.drop k b).2 names 1 input rest = c.stagesFrom f plan names 1 input rest :=
    stagesFrom_congr (fun _ _ _ hat' => h.stages_drop_forward hplan hat hk hbo hmade b hat') hat.links_cons
  unfold pipeline
  rw [Plan.boundary?_drop_of_ne (Nat.ne_of_gt hk), show c.links = l :: rest from hat]
  cases plan.boundary? 0 with
  | none => rfl
  | some source => simp only [hrun]

/-! ### Fields of a plan -/

/-- What is carried where the carrier is made is a variable so far that a later clause uses. -/
theorem KeepsRules.mem_made (h : c.KeepsRules f names policy) (hplan : c.plan f = .ok plan) (hat : c.At [] l rest)
    {bo : Boundary} (hbo : plan.boundary? k = some bo) (hmade : bo.isMade = true) (hfd : fd ∈ bo.carrier.fields) :
    f.isUsedAfter k fd.binding = true ∧
      ∃ bd, c.binding? fd.binding = some bd ∧ fd.name = bd.name ∧ bd.clause ≤ k := by
  rcases Nat.eq_zero_or_pos k with rfl | hk
  · obtain ⟨b, bd, -, -, -, hsource⟩ := h.boundary_source hplan hat
    obtain rfl := Option.mem_unique hbo hsource
    cases hmade
  · obtain ⟨before, l', rest', prev, hat', rfl, -, -, has⟩ := h.boundary_at hplan hat hk hbo
    cases has with
    | forward _ _ _ _ hmade' =>
      rw [hmade] at hmade'
      cases hmade'
    | made _ hC _ _ =>
      rw [hC] at hfd
      obtain ⟨hint, hread, bd, hbd, hname, -⟩ := (h.mem_planned hat').1 hfd
      obtain ⟨bd', hbd', hle⟩ := hat'.clause_le_of_introduces h.formed hint
      obtain rfl := Option.mem_unique hbd hbd'
      exact ⟨(h.isUsedAfter_iff hat').2 hread, bd, hbd, hname, hle⟩

private theorem KeepsRules.drops (h : c.KeepsRules f names policy) (hplan : c.plan f = .ok plan) (hat : c.At [] l rest)
    {bo : Boundary} (hbo : plan.boundary? k = some bo) (hmade : k = 0 ∨ bo.isMade = true)
    (hfd : fd ∈ bo.carrier.fields) : c.Drops f names policy plan k fd := by
  refine ⟨h, hplan, ?_, fun bo' hbo' => Option.mem_unique hbo hbo' ▸ hmade⟩
  rcases hmade with rfl | hmade
  · obtain ⟨b, bd, -, hbd, hclause, hsource⟩ := h.boundary_source hplan hat
    obtain rfl := Option.mem_unique hbo hsource
    obtain rfl := List.mem_singleton.1 hfd
    exact ⟨bd, hbd, rfl, by omega⟩
  · exact (h.mem_made hplan hat hbo hmade hfd).2

end Chain

/-- A variable dropped from a plan is missed by exactly its later uses, and if a filter hands it on all the same, by
none. -/
theorem Query.drop_fails_readers {q : Query} {c : Chain} {names : SymbolTable} {policy : ScopePolicy} {f : Flow}
    {plan : Plan} {k : Nat} {bo : Boundary} {fd : Field} (hc : q.chain = .ok c)
    (h : c.analyze names policy = .ok (f, plan)) (hbo : plan.boundary? k = some bo) (hfd : fd ∈ bo.carrier.fields) :
    ∃ reduced, plan.drop k fd.binding = (true, reduced) ∧
      (k = 0 ∨ bo.isMade = true →
        (∀ e, c.pipeline f reduced names = .error e ↔ ∃ r, e = .error r ∧ r.toList = f.lostFrom names fd (k + 1)) ∧
        ((∃ p, c.pipeline f reduced names = .ok p) ↔ f.isUsedAfter k fd.binding = false)) ∧
      (bo.isMade = true → f.isUsedAfter k fd.binding = true) ∧
      (k ≠ 0 → bo.isMade = false → ∃ p, c.pipeline f reduced names = .ok p ∧ c.pipeline f plan names = .ok p) := by
  obtain ⟨hflow, hscope, hassigned, hplan⟩ := Chain.analyze_eq_ok.1 h
  have hrules := keepsRules hc hflow hscope hassigned
  obtain ⟨first, rest, hfirst⟩ := chain_cons hc
  have hcarries : (plan.drop k fd.binding).1 = true := by
    unfold Plan.drop
    rw [hbo]
    exact Carrier.contains_iff.2 ⟨fd, hfd, rfl⟩
  refine ⟨(plan.drop k fd.binding).2, Prod.ext hcarries rfl, fun hmade => ?_,
    fun hmade => (hrules.mem_made hplan hfirst hbo hmade hfd).1, fun hk hmade => ?_⟩
  · obtain ⟨p, hp⟩ := (hrules.drops hplan hfirst hbo hmade hfd).pipeline_eq hfirst
    rw [hp]
    refine ⟨fun e => ?_, ?_⟩
    · rw [Except.bind_eq_error, Report.check_eq_error]
      simp
    · have hnone : f.lostFrom names fd (k + 1) = [] ↔ f.isUsedAfter k fd.binding = false := Flow.lostFrom_eq_nil_iff
      rw [← hnone, ← Report.check_eq_ok]
      constructor
      · rintro ⟨p', hp'⟩
        obtain ⟨_, hcheck, -⟩ := Except.bind_eq_ok.1 hp'
        exact hcheck
      · intro hcheck
        exact ⟨p, by rw [hcheck, Except.bind_ok]⟩
  · obtain ⟨-, hp⟩ := hrules.pipeline_eq hfirst hplan
    refine ⟨_, ?_, hp⟩
    rw [hrules.pipeline_drop_forward hplan hfirst (Nat.pos_of_ne_zero hk) hbo hmade, hp]

/-- The element dropped after the definition is missed by the second filter and by the selection.  The first filter,
which does not use it, hands on what is left. -/
theorem Query.twoFilters_drop_fails_readers : ∃ c f plan bo reduced, Query.twoFilters.chain = .ok c ∧
    c.analyze Query.twoFilterNames .unique = .ok (f, plan) ∧ plan.boundary? 1 = some bo ∧
    (⟨⟨0⟩, ⟨1⟩, .object⟩ : Field) ∈ bo.carrier.fields ∧ plan.drop 1 ⟨0⟩ = (true, reduced) ∧
    c.pipeline f reduced Query.twoFilterNames =
      .error (.error ⟨⟨3, ⟨12, 13⟩, .unassigned "x"⟩, [⟨4, ⟨16, 17⟩, .unassigned "x"⟩]⟩) := by
  have hrun : (Query.twoFilters.chain >>= fun c => c.analyze Query.twoFilterNames .unique).toOption.map
      (fun r => (r.2.boundary? 1, r.1.lostFrom Query.twoFilterNames ⟨⟨0⟩, ⟨1⟩, .object⟩ 2)) =
      some (some ⟨1, ⟨1, [⟨⟨0⟩, ⟨1⟩, .object⟩, ⟨⟨1⟩, ⟨2⟩, .object⟩]⟩, none, none, true⟩,
        [⟨3, ⟨12, 13⟩, .unassigned "x"⟩, ⟨4, ⟨16, 17⟩, .unassigned "x"⟩]) := by cbv
  cases hr : Query.twoFilters.chain >>= fun c => c.analyze Query.twoFilterNames .unique with
  | error e =>
    rw [hr] at hrun
    cases hrun
  | ok r =>
    rw [hr] at hrun
    obtain ⟨hbo, hlost⟩ := Prod.mk.inj (Option.some.inj hrun)
    obtain ⟨c, hc, h⟩ := Except.bind_eq_ok.1 hr
    have hfd : (⟨⟨0⟩, ⟨1⟩, .object⟩ : Field) ∈ [⟨⟨0⟩, ⟨1⟩, .object⟩, ⟨⟨1⟩, ⟨2⟩, .object⟩] := by simp
    obtain ⟨reduced, hdrop, hfails, -, -⟩ := Query.drop_fails_readers hc h hbo hfd
    exact ⟨c, r.1, r.2, _, reduced, hc, h, hbo, hfd, hdrop, ((hfails (Or.inr rfl)).1 _).2 ⟨_, rfl, hlost.symm⟩⟩

end QueryPipeline
