import Mathlib
import QueryPipeline.Proofs.Lowering

/-!
# What a chain is rejected for

The checks of a chain come one after the other: ambiguous names, rules of scope, uses without a value, and rows of
names that do not fit.  A chain that passes them all has a pipeline, since its translation finds every variable that
a clause reads.  So a report has the rejections of one check, and none of them is a fault of the program or of the
row of clauses (`Query.rejected_by_one_check`).
-/

namespace QueryPipeline

/-! ### Reports -/

theorem Report.check_eq_error {rs : List Rejection} {e : Failure Report} :
    Report.check rs = .error e ↔ ∃ r, e = .error r ∧ r.toList = rs := by
  unfold Report.check
  cases rs with
  | nil =>
    constructor
    · intro h
      cases h
    · rintro ⟨r, -, h⟩
      cases h
  | cons x rs =>
    constructor
    · intro h
      exact ⟨⟨x, rs⟩, (Except.error.inj h).symm, rfl⟩
    · rintro ⟨⟨y, ys⟩, rfl, h⟩
      obtain ⟨rfl, rfl⟩ := List.cons.inj h
      rfl

theorem Report.exists_toList {rs : List Rejection} (h : rs ≠ []) : ∃ r : Report, r.toList = rs := by
  cases rs with
  | nil => exact absurd rfl h
  | cons x rs => exact ⟨⟨x, rs⟩, rfl⟩

/-! ### What each check finds -/

namespace Chain

variable {c : Chain} {f : Flow} {names : SymbolTable} {policy : ScopePolicy} {x : Rejection}

private theorem ambiguitiesFrom_code {k : Nat} {links : List Link} (h : x ∈ ambiguitiesFrom names k links) :
    x.cause.code = .ambiguous := by
  induction links generalizing k with
  | nil => cases h
  | cons l links ih =>
    rw [ambiguitiesFrom] at h
    rcases List.mem_append.1 h with h | h
    · obtain ⟨clash, -, rfl⟩ := List.mem_map.1 h
      rfl
    · exact ih h

private theorem escapes_code (h : x ∈ c.escapes f names policy) : x.cause.code = .scope := by
  obtain ⟨⟨k, u⟩, -, h⟩ := List.mem_filterMap.1 h
  dsimp only at h
  split at h
  · split at h
    · split at h
      · obtain rfl := Option.some.inj h
        rfl
      · cases h
    · cases h
  · cases h

private theorem repeatsFrom_code {before bs : List Binding} (h : x ∈ repeatsFrom names policy before bs) :
    x.cause.code = .scope := by
  induction bs generalizing before with
  | nil => cases h
  | cons b bs ih =>
    rw [repeatsFrom] at h
    split at h
    · rcases List.mem_cons.1 h with rfl | h
      · rfl
      · exact ih h
    · exact ih h

private theorem readOnlyAssignments_code (h : x ∈ c.readOnlyAssignments f names) : x.cause.code = .readOnly := by
  obtain ⟨⟨k, u⟩, -, h⟩ := List.mem_filterMap.1 h
  dsimp only at h
  split at h
  · split at h
    · obtain rfl := Option.some.inj h
      rfl
    · cases h
  · cases h

private theorem rebindingsIn_code {k : Nat} {before ids : List BindingId} {own : List Symbol}
    (h : x ∈ c.rebindingsIn f names policy k before own ids) : x.cause.code = .nameInUse := by
  induction ids generalizing own with
  | nil => cases h
  | cons id ids ih =>
    rw [rebindingsIn] at h
    split at h
    · dsimp only at h
      split at h
      · rcases List.mem_cons.1 h with rfl | h
        · rfl
        · exact ih h
      · exact ih h
    · exact ih h

private theorem rebindingsFrom_code {k : Nat} {before : List BindingId} {links : List Link}
    (h : x ∈ c.rebindingsFrom f names policy k before links) : x.cause.code = .nameInUse := by
  induction links generalizing k before with
  | nil => cases h
  | cons l links ih =>
    rw [rebindingsFrom] at h
    rcases List.mem_append.1 h with h | h
    · exact rebindingsIn_code h
    · exact ih h

private theorem scopeFaults_code (h : x ∈ c.scopeFaults f names policy) :
    x.cause.code = .scope ∨ x.cause.code = .readOnly ∨ x.cause.code = .nameInUse := by
  unfold scopeFaults at h
  rw [List.mem_append, List.mem_append] at h
  rcases h with (h | h) | h
  · left
    cases policy with
    | disallow => exact escapes_code h
    | unique => exact repeatsFrom_code h
  · exact Or.inr (Or.inl (readOnlyAssignments_code h))
  · exact Or.inr (Or.inr (rebindingsFrom_code h))

private theorem unassignedFrom_code {k : Nat} {uses : List (List Use)} (h : x ∈ f.unassignedFrom names k uses) :
    x.cause.code = .unassigned := by
  induction uses generalizing k with
  | nil => cases h
  | cons us uses ih =>
    rw [Flow.unassignedFrom] at h
    rcases List.mem_append.1 h with h | h
    · obtain ⟨u, -, rfl⟩ := List.mem_map.1 h
      rfl
    · exact ih h

private theorem boundaryAfter_code {k : Nat} {before : Carrier} {live : List BindingId} {l : Link}
    (h : c.boundaryAfter k before live l = .error x) : x.cause.code = .arity := by
  unfold boundaryAfter at h
  dsimp only at h
  split at h
  · split at h <;> cases h
  · rcases Except.bind_eq_error.1 h with h | ⟨ex, -, h⟩
    · unfold Link.extraction at h
      split at h
      · cases h
      · obtain rfl := Except.error.inj h
        rfl
    · cases h
  · cases h

private theorem boundariesFrom_code {k : Nat} {before : Carrier} {links : List (Link × List BindingId)}
    (h : c.boundariesFrom k before links = .error x) : x.cause.code = .arity := by
  fun_induction boundariesFrom c k before links with
  | case1 | case2 => cases h
  | case3 k before l live rest _ ih =>
    rcases Except.bind_eq_error.1 h with h | ⟨b, -, h⟩
    · exact boundaryAfter_code h
    · rcases Except.bind_eq_error.1 h with h | ⟨later, -, h⟩
      · exact ih b h
      · cases h

private theorem plan_error {e : Failure Report} (h : c.plan f = .error e) :
    ∃ x, e = .error (.one x) ∧ x.cause.code = .arity := by
  unfold plan at h
  dsimp only at h
  split at h
  · rename_i x hx
    exact ⟨x, (Except.error.inj h).symm, boundariesFrom_code hx⟩
  · cases h

end Chain

/-! ### One check at a time -/

/-- The rejections are what one check finds: ambiguous names, broken rules of scope, uses without a value, or one row
of names that does not fit. -/
inductive Report.OfOneCheck (r : Report) : Prop
  | ambiguity (h : ∀ x ∈ r.toList, x.cause.code = .ambiguous)
  | scope (h : ∀ x ∈ r.toList, x.cause.code = .scope ∨ x.cause.code = .readOnly ∨ x.cause.code = .nameInUse)
  | assignment (h : ∀ x ∈ r.toList, x.cause.code = .unassigned)
  | arity (h : ∃ x, r.toList = [x] ∧ x.cause.code = .arity)

private theorem Report.OfOneCheck.code_ne {r : Report} (h : r.OfOneCheck) {x : Rejection} (hx : x ∈ r.toList) :
    x.cause.code ≠ .internal ∧ x.cause.code ≠ .malformed := by
  cases h with
  | ambiguity h => simp [h x hx]
  | scope h => rcases h x hx with h | h | h <;> simp [h]
  | assignment h => simp [h x hx]
  | arity h =>
    obtain ⟨y, hr, hy⟩ := h
    rw [hr, List.mem_singleton] at hx
    simp [hx, hy]

private theorem Chain.analyze_error {c : Chain} {names : SymbolTable} {policy : ScopePolicy} {e : Failure Report}
    (h : c.analyze names policy = .error e) : ∃ r, e = .error r ∧ r.OfOneCheck := by
  rcases Except.bind_eq_error.1 h with h | ⟨f, -, h⟩
  · rcases Except.bind_eq_error.1 h with h | ⟨_, -, h⟩
    · obtain ⟨r, rfl, hr⟩ := Report.check_eq_error.1 h
      refine ⟨r, rfl, .ambiguity fun x hx => ?_⟩
      rw [hr] at hx
      exact ambiguitiesFrom_code (Rejection.mem_sort.1 hx)
    · cases h
  rcases Except.bind_eq_error.1 h with h | ⟨_, -, h⟩
  · obtain ⟨r, rfl, hr⟩ := Report.check_eq_error.1 h
    exact ⟨r, rfl, .scope fun x hx => scopeFaults_code (hr ▸ hx)⟩
  rcases Except.bind_eq_error.1 h with h | ⟨_, -, h⟩
  · obtain ⟨r, rfl, hr⟩ := Report.check_eq_error.1 h
    exact ⟨r, rfl, .assignment fun x hx => unassignedFrom_code (hr ▸ hx)⟩
  rcases Except.bind_eq_error.1 h with h | ⟨_, -, h⟩
  · obtain ⟨x, rfl, hx⟩ := plan_error h
    exact ⟨.one x, rfl, .arity ⟨x, rfl, hx⟩⟩
  · cases h

/-- A chain that passes all checks has a pipeline.  If it is rejected, the report has what one check finds. -/
theorem Query.rejected_by_one_check {q : Query} {c : Chain} (hc : q.chain = .ok c) (names : SymbolTable)
    (policy : ScopePolicy) :
    (∀ f plan, c.flow names = .ok f → c.requireScope f names policy = .ok () → f.requireAssigned names = .ok () →
      c.plan f = .ok plan → ∃ p, c.pipeline f plan names = .ok p) ∧
    ∀ e, c.lower names policy = .error e → ∃ r, e = .error r ∧ r.OfOneCheck ∧
      ∀ x ∈ r.toList, x.cause.code ≠ .internal ∧ x.cause.code ≠ .malformed := by
  have hpipe : ∀ f plan, c.flow names = .ok f → c.requireScope f names policy = .ok () →
      f.requireAssigned names = .ok () → c.plan f = .ok plan → ∃ p, c.pipeline f plan names = .ok p := by
    intro f plan hflow hscope hassigned hplan
    obtain ⟨first, rest, hat⟩ := chain_cons hc
    exact ⟨_, ((keepsRules hc hflow hscope hassigned).pipeline_eq hat hplan).2⟩
  refine ⟨hpipe, fun e h => ?_⟩
  rcases Except.bind_eq_error.1 h with h | ⟨⟨f, plan⟩, hanalyze, h⟩
  · obtain ⟨r, rfl, hr⟩ := Chain.analyze_error h
    exact ⟨r, rfl, hr, fun x hx => hr.code_ne hx⟩
  · -- the translation cannot be what failed
    obtain ⟨hflow, hscope, hassigned, hplan⟩ := Chain.analyze_eq_ok.1 hanalyze
    obtain ⟨p, hp⟩ := hpipe f plan hflow hscope hassigned hplan
    have h : c.pipeline f plan names = .error e := h
    rw [hp] at h
    cases h

/-- A filter that assigns the variable of the source: `from x in [7] where x is int i && (x = 1) == 1 select i`. -/
def Query.overwrites : Query where
  pool :=
    { nodes := #[⟨.literal (.int 7), ⟨0, 1⟩⟩, ⟨.row .list ⟨0, 1⟩, ⟨2, 3⟩⟩, ⟨.ident ⟨1⟩, ⟨4, 5⟩⟩,
        ⟨.test (.hasType .int) ⟨2⟩ ⟨2⟩, ⟨6, 7⟩⟩, ⟨.literal (.int 1), ⟨8, 9⟩⟩, ⟨.assign ⟨1⟩ ⟨4⟩, ⟨10, 11⟩⟩,
        ⟨.literal (.int 1), ⟨12, 13⟩⟩, ⟨.operator .eq ⟨5⟩ ⟨6⟩, ⟨14, 15⟩⟩, ⟨.connective .and ⟨3⟩ ⟨7⟩, ⟨16, 17⟩⟩,
        ⟨.ident ⟨2⟩, ⟨18, 19⟩⟩]
      lists := #[⟨0⟩] }
  clauses :=
    [⟨.source, ⟨1⟩, .one ⟨1⟩, .object, ⟨0, 1⟩⟩, ⟨.filter, ⟨8⟩, .none, .bool, ⟨0, 1⟩⟩,
      ⟨.select, ⟨9⟩, .none, .int, ⟨0, 1⟩⟩]

/-- The spellings of its names. -/
def Query.overwriteNames : SymbolTable := ⟨#["", "x", "i"]⟩

/-- The same without the assignment: `from x in [7] where x is int i select i`. -/
def Query.selects : Query where
  pool := Query.overwrites.pool
  clauses :=
    [⟨.source, ⟨1⟩, .one ⟨1⟩, .object, ⟨0, 1⟩⟩, ⟨.filter, ⟨3⟩, .none, .bool, ⟨0, 1⟩⟩,
      ⟨.select, ⟨9⟩, .none, .int, ⟨0, 1⟩⟩]

/-- The assignment and the use in a later clause are both found by the check of scope.  Without the assignment, and
with the use allowed, there is a pipeline. -/
theorem Query.overwrites_rejected_by_one_check :
    (∃ c r, Query.overwrites.chain = .ok c ∧ c.lower Query.overwriteNames .disallow = .error (.error r) ∧
      r.toList.map (·.cause.code) = [.scope, .readOnly] ∧ r.OfOneCheck ∧
      ∀ x ∈ r.toList, x.cause.code ≠ .internal ∧ x.cause.code ≠ .malformed) ∧
    ∃ c f plan, Query.selects.chain = .ok c ∧ c.flow Query.overwriteNames = .ok f ∧
      c.requireScope f Query.overwriteNames .unique = .ok () ∧ f.requireAssigned Query.overwriteNames = .ok () ∧
      c.plan f = .ok plan ∧ ∃ p, c.pipeline f plan Query.overwriteNames = .ok p := by
  constructor
  · obtain ⟨c, hc⟩ : ∃ c, Query.overwrites.chain = .ok c := ⟨_, rfl⟩
    have hlower : Query.overwrites.chain.toOption.map (fun c => c.lower Query.overwriteNames .disallow) =
        some (.error (.error
          ⟨⟨2, ⟨18, 19⟩, .outOfScope "i" .disallow "it is introduced in clause 1 and used in clause 2"⟩,
            [⟨1, ⟨10, 11⟩, .readOnly "x"⟩]⟩)) := by cbv
    rw [hc] at hlower
    have hlower := Option.some.inj hlower
    obtain ⟨r, heq, hone, hcodes⟩ := (Query.rejected_by_one_check hc Query.overwriteNames .disallow).2 _ hlower
    obtain rfl := Failure.error.inj heq
    exact ⟨c, _, hc, hlower, rfl, hone, hcodes⟩
  · obtain ⟨p, hp⟩ : ∃ p, Query.selects.lower Query.overwriteNames .unique = .ok p := ⟨_, rfl⟩
    obtain ⟨c, hc, hlower⟩ := Except.bind_eq_ok.1 hp
    obtain ⟨⟨f, plan⟩, hanalyze, -⟩ := Except.bind_eq_ok.1 hlower
    obtain ⟨hflow, hscope, hassigned, hplan⟩ := Chain.analyze_eq_ok.1 hanalyze
    have hpipeline := (Query.rejected_by_one_check hc Query.overwriteNames .unique).1 f plan
    exact ⟨c, f, plan, hc, hflow, hscope, hassigned, hplan, hpipeline hflow hscope hassigned hplan⟩

end QueryPipeline
