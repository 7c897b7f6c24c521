import Mathlib
import QueryPipeline.Proofs.Shown

/-!
# A run is a nested loop

Stage by stage the pipeline of an accepted query does to a value what the clause does to the environment that the
value shows (`Chain.Simulates`).  So the whole run has the results, the captures and the failures of the nested loop
(`Query.run_eq_nestedLoop`).

There is one thing that the loops have to be told: what a filter turns down because it takes a null for a failure
(`Chain.vetoesNull`).  It is nothing, if no filter assigns a variable of its own.
-/

namespace QueryPipeline

/-! ### Stages that find their variables -/

namespace Stage

variable {p : Pool} {g : Setting} {index k : Nat} {input : Shape} {D : Carrier} {e : NodeId} {v : Value}
variable {locals : Store}

private theorem generate_step {id : BindingId} (hv : input.unpack? v = some locals) :
    stepWith p g index ⟨.flatMap, input, .carrier D, .generate e id, k⟩ v = p.evalWith g e locals >>= fun r =>
      Computation.ofExcept r.1.elements >>= fun items =>
        Computation.ofExcept (D.packEach g.names r.2 id items) := by
  simp only [stepWith, Stage.locals, target, Shape.carrier?, hv, Computation.ofOption_some, pure_bind]

private theorem extend_step {id : BindingId} (hv : input.unpack? v = some locals) :
    stepWith p g index ⟨.map, input, .carrier D, .extend [(id, e)], k⟩ v = p.evalWith g e locals >>= fun r =>
      Computation.ofExcept (D.pack g.names (D.addTo r.2 id r.1)) >>= fun u => pure [u] := by
  simp only [stepWith, Stage.locals, target, Shape.carrier?, hv, Computation.ofOption_some, pure_bind, Carrier.extend,
    bind_assoc]

private theorem destructure_step {parts : List (BindingId × Nat)} (hv : input.unpack? v = some locals) :
    stepWith p g index ⟨.map, input, .carrier D, .destructure e parts, k⟩ v = p.evalWith g e locals >>= fun r =>
      Computation.ofExcept (D.extract r.1 r.2 parts) >>= fun locals' =>
        Computation.ofExcept (D.pack g.names locals') >>= fun u => pure [u] := by
  simp only [stepWith, Stage.locals, target, Shape.carrier?, hv, Computation.ofOption_some, pure_bind]

private theorem predicate_step (hv : input.unpack? v = some locals) :
    stepWith p g index ⟨.filter, input, input, .predicate e, k⟩ v = p.evalWith g e locals >>= fun r =>
      Computation.ofExcept r.1.asBool >>= fun holds => pure (if holds then [v] else []) := by
  simp only [stepWith, Stage.locals, hv, Computation.ofOption_some, pure_bind, Pool.holdsWith, bind_assoc]

private theorem guard_step {encoding : Encoding} (hv : input.unpack? v = some locals) :
    stepWith p g index ⟨.map, input, .outcome D encoding, .guard e, k⟩ v = p.evalWith g e locals >>= fun r =>
      Computation.ofExcept r.1.asBool >>= fun holds =>
        if holds then Computation.ofExcept (D.pack g.names r.2) >>= fun u => pure [encoding.write (some u)]
        else pure [encoding.write none] := by
  simp only [stepWith, Stage.locals, hv, Computation.ofOption_some, pure_bind, Pool.holdsWith, bind_assoc]

private theorem project_step {ty : Ty} (hv : input.unpack? v = some locals) :
    stepWith p g index ⟨.map, input, .projection ty, .project e, k⟩ v =
      p.evalWith g e locals >>= fun r => pure [r.1] := by
  simp only [stepWith, Stage.locals, hv, Computation.ofOption_some, pure_bind]

end Stage

namespace Run

variable {p : Pool} {names : SymbolTable} {index k : Nat} {D : Carrier} {encoding : Encoding}
variable {more : List (Stage NodeId)} {w : Value}

/-- A failure ends here, and a success goes on as it is. -/
theorem through_rejectAbsent {o : Option Value} (hread : encoding.read? w = some o) :
    through p names index (⟨.filter, .outcome D encoding, .outcome D encoding, .rejectAbsent, k⟩ :: more) w =
      if o.isSome then through p names (index + 1) more w else pure [] := by
  simp only [through, Stage.step, Body.declared?, Body.expr?, Stage.stepWith, hread, Computation.ofOption_some,
    pure_bind]
  cases o with
  | none => rfl
  | some u => exact forEach_singleton _ w

/-- Of a success the carrier goes on. -/
theorem through_unwrap {u : Value} (hread : encoding.read? w = some (some u)) :
    through p names index (⟨.map, .outcome D encoding, .carrier D, .unwrap, k⟩ :: more) w =
      through p names (index + 1) more u := by
  simp only [through, Stage.step, Body.declared?, Body.expr?, Stage.stepWith, hread, Option.join_some,
    Computation.ofOption_some, pure_bind]
  exact forEach_singleton _ u

end Run

namespace Chain

variable {c : Chain} {f : Flow} {names : SymbolTable} {policy : ScopePolicy}
variable {before rest : List Link} {l : Link} {C : Carrier} {locals : Store} {env : Env}

/-! ### Loops by the kind of a clause -/

section Loop

variable {veto : Veto}

private theorem loop_generator (hk : l.kind = .source ∨ l.kind = .generator) :
    c.loop names veto before (l :: rest) env = c.evaluate names before l env >>= fun r =>
      Computation.ofExcept r.1.elements >>= Run.forEach fun item =>
        c.loop names veto (l :: before) rest ((c.leave l r.2).set ⟨l.ranges.start⟩ item) := by
  rcases hk with hk | hk <;> simp only [loop, hk]

private theorem loop_filter (hk : l.kind = .filter) :
    c.loop names veto before (l :: rest) env = c.evaluate names before l env >>= fun r =>
      Computation.ofExcept r.1.asBool >>= fun holds =>
        if holds && !veto before l rest r.2 then c.loop names veto (l :: before) rest (c.leave l r.2)
        else pure [] := by
  simp only [loop, hk]

private theorem loop_define (hk : l.kind = .define) :
    c.loop names veto before (l :: rest) env = c.evaluate names before l env >>= fun r =>
      c.loop names veto (l :: before) rest ((c.leave l r.2).set ⟨l.ranges.start⟩ r.1) := by
  simp only [loop, hk]

private theorem loop_unpack (hk : l.kind = .unpack) :
    c.loop names veto before (l :: rest) env = c.evaluate names before l env >>= fun r =>
      Computation.ofExcept ((c.leave l r.2).setParts r.1 (c.isUsed (l :: before) rest) l.ranges.ids.zipIdx) >>=
        c.loop names veto (l :: before) rest := by
  simp only [loop, hk]

private theorem loop_select (hk : l.kind = .select) :
    c.loop names veto before (l :: rest) env = c.evaluate names before l env >>= fun r => pure [r.1] := by
  simp only [loop, hk]

end Loop

/-! ### Stages by the kind of a clause -/

/-- The stages do with every value what the clauses do with an environment that the value shows. -/
def Simulates (c : Chain) (names : SymbolTable) (veto : Veto) (before : List Link) (input : Shape) (rest : List Link)
    (index : Nat) (stages : List (Stage NodeId)) : Prop :=
  ∀ C v locals env, input.carrier? = some C → input.unpack? v = some locals → Shows before C locals env →
    Run.through c.pool names index stages v = c.loop names veto before rest env

/-- At the filters of the chain the veto is the one of null as the mark of failure. -/
def MarksNull (c : Chain) (f : Flow) (names : SymbolTable) (policy : ScopePolicy) (veto : Veto) : Prop :=
  ∀ before l rest C locals locals' env, c.Placed f names policy before l rest C → l.kind = .filter →
    HoldsOnly C locals → l.term.Evaluated (l.setting names) locals (.bool true) locals' →
    c.Mirrors before l C locals' env → veto before l rest env = c.vetoesNull before l rest env

namespace Placed

variable {veto : Veto} {input : Shape} {v : Value} {index k : Nat} {more : List (Stage NodeId)} {locals' : Store}
variable {env' : Env}

/-- With the one variable that the clause names, the next carrier shows the environment. -/
theorem range_shows (h : c.Placed f names policy before l rest C) (hk : l.kind = .generator ∨ l.kind = .define)
    (honly : HoldsOnly C locals) {w : Value} (heval : l.term.Evaluated (l.setting names) locals w locals')
    (hm : c.Mirrors before l C locals' env') (item : Value) :
    ∃ u locals'', (c.planned before l rest).pack names
        ((c.planned before l rest).addTo locals' ⟨l.ranges.start⟩ item) = .ok u ∧
      (c.planned before l rest).unpack? u = some locals'' ∧
      Shows (l :: before) (c.planned before l rest) locals'' ((c.leave l env').set ⟨l.ranges.start⟩ item) := by
  have hone := h.place.ranges_one h.rules.formed (Or.inr hk)
  have hid : (⟨l.ranges.start⟩ : BindingId) ∈ l.ids := List.mem_append_left _ (by rw [hone]; simp)
  refine h.pack_shows (h.rules.held_range h.place h.carries honly hk heval item) (fun fd hfd => ?_)
    (set_known hid (leave_known hm))
  refine addTo_get? (h.rules.carries_planned h.place).nodup h.planned_names hfd fun hne => ?_
  exact h.planned_same hm hfd (by rw [hone]; simpa using hne)

private theorem packEach_forEach {D : Carrier} {id : BindingId} {F G : Value → Run (List Value)}
    (h : ∀ item, ∃ u, D.pack names (D.addTo locals id item) = .ok u ∧ F u = G item) (items : List Value) :
    ∃ ws, D.packEach names locals id items = .ok ws ∧ Run.forEach F ws = Run.forEach G items := by
  induction items with
  | nil => exact ⟨[], rfl, rfl⟩
  | cons item items ih =>
    obtain ⟨ws, hws, heach⟩ := ih
    obtain ⟨u, hu, hF⟩ := h item
    refine ⟨u :: ws, by rw [Carrier.packEach, hu]; simp [hws, Except.map], ?_⟩
    rw [Run.forEach, Run.forEach, hF, heach]

/-- A stage of the clause simulates it if, once the expression is evaluated on both sides, the two go on alike. -/
theorem simulates_of (h : c.Placed f names policy before l rest C) (hin : input.carrier? = some C) {s : Stage NodeId}
    (hexpr : s.body.expr? = some l.expr) {F : Value → Value × Store → Run (List Value)}
    {G : Value × Env → Run (List Value)}
    (hstep : ∀ v locals, input.unpack? v = some locals → s.stepWith c.pool (l.setting names) index v =
      c.pool.evalWith (l.setting names) l.expr locals >>= F v)
    (hloop : ∀ env, c.loop names veto before (l :: rest) env = c.evaluate names before l env >>= G)
    (hgo : ∀ v locals w locals' env', input.unpack? v = some locals → HoldsOnly C locals →
      l.term.Evaluated (l.setting names) locals w locals' → c.Mirrors before l C locals' env' →
      F v (w, locals') >>= Run.forEach (Run.through c.pool names (index + 1) more) = G (w, env')) :
    c.Simulates names veto before input (l :: rest) index (s :: more) := by
  intro C' v locals env hC hv hs
  obtain rfl := Option.mem_unique hin hC
  rw [Run.through, Stage.step_of_term hexpr h.term, hstep v locals hv, hloop, bind_assoc]
  refine (h.evalWith_matches (hs.mirrors h)).bind_eq ?_
  rintro ⟨w, locals'⟩ ⟨_, env'⟩ ⟨rfl, hm, heval⟩
  exact hgo v locals w locals' env' hv hs.only heval hm

private theorem simulates_generate (h : c.Placed f names policy before l rest C) (hin : input.carrier? = some C)
    (hk : l.kind = .generator)
    (hnext : c.Simulates names veto (l :: before) (.carrier (c.planned before l rest)) rest (index + 1) more) :
    c.Simulates names veto before input (l :: rest) index (⟨.flatMap, input, .carrier (c.planned before l rest),
      .generate l.expr ⟨l.ranges.start⟩, k⟩ :: more) := by
  refine h.simulates_of hin rfl (fun v locals hv => Stage.generate_step hv) (fun env => loop_generator (Or.inr hk)) ?_
  intro v locals collection locals' env' _ honly heval hm
  rw [bind_assoc]
  refine Run.bind_ofExcept_congr fun items _ => ?_
  have hall : ∀ item, ∃ u, (c.planned before l rest).pack names
      ((c.planned before l rest).addTo locals' ⟨l.ranges.start⟩ item) = .ok u ∧
        Run.through c.pool names (index + 1) more u =
          c.loop names veto (l :: before) rest ((c.leave l env').set ⟨l.ranges.start⟩ item) := by
    intro item
    obtain ⟨u, packed, hu, hunpack, hshows⟩ := h.range_shows (Or.inl hk) honly heval hm item
    exact ⟨u, hu, hnext _ _ _ _ rfl hunpack hshows⟩
  obtain ⟨ws, hws, heach⟩ := packEach_forEach hall items
  have hnames : (l.setting names).names = names := rfl
  rw [hnames, hws, Computation.ofExcept_ok, pure_bind, heach]

private theorem simulates_extend (h : c.Placed f names policy before l rest C) (hin : input.carrier? = some C)
    (hk : l.kind = .define)
    (hnext : c.Simulates names veto (l :: before) (.carrier (c.planned before l rest)) rest (index + 1) more) :
    c.Simulates names veto before input (l :: rest) index (⟨.map, input, .carrier (c.planned before l rest),
      .extend [(⟨l.ranges.start⟩, l.expr)], k⟩ :: more) := by
  refine h.simulates_of hin rfl (fun v locals hv => Stage.extend_step hv) (fun env => loop_define hk) ?_
  intro v locals w locals' env' _ honly heval hm
  obtain ⟨u, packed, hu, hunpack, hshows⟩ := h.range_shows (Or.inr hk) honly heval hm w
  have hnames : (l.setting names).names = names := rfl
  rw [hnames, hu, Computation.ofExcept_ok, pure_bind, pure_bind, Run.forEach_singleton]
  exact hnext _ _ _ _ rfl hunpack hshows

private theorem simulates_destructure (h : c.Placed f names policy before l rest C) (hin : input.carrier? = some C)
    (hk : l.kind = .unpack)
    (hnext : c.Simulates names veto (l :: before) (.carrier (c.planned before l rest)) rest (index + 1) more) :
    c.Simulates names veto before input (l :: rest) index (⟨.map, input, .carrier (c.planned before l rest),
      .destructure l.expr (l.ranges.ids.zipIdx.filter fun q => (c.planned before l rest).contains q.1), k⟩ ::
        more) := by
  refine h.simulates_of hin rfl (fun v locals hv => Stage.destructure_step hv) (fun env => loop_unpack hk) ?_
  intro v locals composite locals' env' _ honly heval hm
  have hids : ∀ q ∈ l.ranges.ids.zipIdx, q.1 ∈ l.ids := fun q hq =>
    List.mem_append_left _ (List.fst_mem_of_mem_zipIdx hq)
  have hsame : ∀ fd ∈ (c.planned before l rest).fields, (∀ q ∈ l.ranges.ids.zipIdx, q.1 ≠ fd.binding) →
      locals'.get? fd.name = c.leave l env' fd.binding := by
    intro fd hfd hother
    refine h.planned_same hm hfd fun hmem => ?_
    obtain ⟨i, hi, heq⟩ := List.getElem_of_mem hmem
    refine hother (fd.binding, i) ?_ rfl
    rw [List.mem_iff_getElem]
    exact ⟨i, by simpa using hi, by simp [heq]⟩
  have hnames : (l.setting names).names = names := rfl
  rcases h.extract_setParts composite hids hsame (leave_known hm) with
    ⟨fault, hex, hset⟩ | ⟨locals'', env'', hex, hset, hget, hknown⟩
  · rw [hex, hset]
    rfl
  · obtain ⟨u, packed, hu, hunpack, hshows⟩ :=
      h.pack_shows (h.rules.held_parts h.place h.carries honly hk heval hex) hget hknown
    rw [hex, hset, Computation.ofExcept_ok, Computation.ofExcept_ok, pure_bind, pure_bind, hnames, hu,
      Computation.ofExcept_ok, pure_bind, pure_bind, Run.forEach_singleton]
    exact hnext _ _ _ _ rfl hunpack hshows

private theorem simulates_project (h : c.Placed f names policy before l [] C) (hin : input.carrier? = some C) :
    c.Simulates names veto before input [l] index [l.selection k input] := by
  obtain ⟨cl, -, -, -, hselect⟩ := h.rules.formed _ _ _ h.place
  refine h.simulates_of hin rfl (fun v locals hv => Stage.project_step hv) (fun env => loop_select (hselect.2 rfl)) ?_
  intro v locals w locals' env' _ _ _ _
  rw [pure_bind, Run.forEach_singleton, Run.through]

/-! ### Filters -/

/-- What comes in shows the environment after the clause as well, if that hands on none of its own variables. -/
theorem shows_leave (h : c.Placed f names policy before l rest C) (honly : HoldsOnly C locals) {w : Value}
    (heval : l.term.Evaluated (l.setting names) locals w locals') (hm : c.Mirrors before l C locals' env') :
    Shows (l :: before) C locals (c.leave l env') where
  only := honly
  same fd hfd := by
    obtain ⟨-, bd, hbd, -, -, hlast⟩ := h.carries.sound fd hfd
    obtain ⟨v, hlocal, henv⟩ := hm.carried fd hfd
    rw [leave_eq hbd hlast, henv, ← hlocal, h.field_kept heval hfd]
  known := leave_known hm

private theorem simulates_predicate (h : c.Placed f names policy before l rest C) (hin : input.carrier? = some C)
    (hk : l.kind = .filter) (hnone : ∀ b ∈ l.ids, ¬ c.ReadIn (l :: before) rest b)
    (hveto : c.MarksNull f names policy veto)
    (hnext : c.Simulates names veto (l :: before) input rest (index + 1) more) :
    c.Simulates names veto before input (l :: rest) index
      (⟨.filter, input, input, .predicate l.expr, k⟩ :: more) := by
  refine h.simulates_of hin rfl (fun v locals hv => Stage.predicate_step hv) (fun env => loop_filter hk) ?_
  intro v locals w locals' env' hv honly heval hm
  rw [bind_assoc]
  refine Run.bind_ofExcept_congr fun holds hholds => ?_
  rw [pure_bind]
  cases holds with
  | false => rfl
  | true =>
    obtain rfl := Value.asBool_eq_ok.1 hholds
    have hpass : veto before l rest env' = false := by
      rw [hveto _ _ _ _ _ _ _ h hk honly heval hm, vetoesNull_of_unused hnone]
    rw [hpass, if_pos rfl, Run.forEach_singleton]
    exact hnext _ _ _ _ hin hv (h.shows_leave honly heval hm)

private theorem simulates_guard (h : c.Placed f names policy before l rest C) (hin : input.carrier? = some C)
    (hk : l.kind = .filter) (hsome : ∃ b ∈ l.patterns.ids, c.ReadIn (l :: before) rest b)
    (hveto : c.MarksNull f names policy veto) {output : Shape}
    (hout : output = .outcome (c.planned before l rest) (c.planned before l rest).encoding)
    (hnext : c.Simulates names veto (l :: before) output rest (index + 2) more) :
    c.Simulates names veto before input (l :: rest) index
      (⟨.map, input, output, .guard l.expr, k⟩ :: ⟨.filter, output, output, .rejectAbsent, k⟩ :: more) := by
  subst hout
  refine h.simulates_of hin rfl (fun v locals hv => Stage.guard_step hv) (fun env => loop_filter hk) ?_
  intro v locals w locals' env' _ honly heval hm
  rw [bind_assoc]
  refine Run.bind_ofExcept_congr fun holds hholds => ?_
  cases holds with
  | false =>
    rw [if_neg (by simp), pure_bind, Run.forEach_singleton, Run.through_rejectAbsent (Encoding.read?_write_none _)]
    rfl
  | true =>
    obtain rfl := Value.asBool_eq_ok.1 hholds
    have hsame : ∀ fd ∈ (c.planned before l rest).fields, locals'.get? fd.name = c.leave l env' fd.binding :=
      fun fd hfd => h.planned_same hm hfd (by rw [h.place.ranges_none h.rules.formed hk]; simp)
    obtain ⟨u, packed, hu, hunpack, hshows⟩ :=
      h.pack_shows (h.rules.held_filter h.place h.carries honly hk heval) hsame (leave_known hm)
    have hnames : (l.setting names).names = names := rfl
    rw [if_pos rfl, hnames, hu, Computation.ofExcept_ok, pure_bind, pure_bind, Run.forEach_singleton,
      Run.through_rejectAbsent (Encoding.read?_write _ u), hveto _ _ _ _ _ _ _ h hk honly heval hm]
    by_cases hnull : (c.planned before l rest).encoding = .elided ∧ u = .null
    · -- the success looks like a failure
      rw [(h.vetoesNull_iff hm hk hsome hu).2 hnull, if_pos hnull]
      rfl
    · have hpass : c.vetoesNull before l rest env' = false :=
        Bool.eq_false_iff.2 fun hveto => hnull ((h.vetoesNull_iff hm hk hsome hu).1 hveto)
      rw [hpass, if_neg hnull]
      refine hnext _ _ _ _ rfl ?_ hshows
      rw [Shape.unpack?, Encoding.read?_write, if_neg hnull]
      exact hunpack

end Placed

theorem Simulates.unwrap {veto : Veto} {D : Carrier} {encoding : Encoding} {index k : Nat}
    {more : List (Stage NodeId)} (hnext : c.Simulates names veto before (.carrier D) rest (index + 1) more) :
    c.Simulates names veto before (.outcome D encoding) rest index
      (⟨.map, .outcome D encoding, .carrier D, .unwrap, k⟩ :: more) := by
  intro C w locals env hC hv hs
  obtain ⟨u, hread, hu⟩ := Option.bind_eq_some_iff.1 hv
  rw [Run.through_unwrap (Option.join_eq_some_iff.1 hread)]
  exact hnext C u locals env hC hu hs

/-! ### Runs -/

/-- The stages of the clauses after the source do what the clauses do. -/
theorem Lowers.simulates (hrules : c.KeepsRules f names policy) (hfit : c.PatternsFit)
    (hnamed : ∀ l ∈ c.links, l.NamesPresent) {veto : Veto} (hveto : c.MarksNull f names policy veto) {input : Shape}
    {stages : List (Stage NodeId)}
    (h : c.Lowers policy before input rest stages) (hlinks : c.links = before.reverse ++ rest) (index : Nat) :
    c.Simulates names veto before input rest index stages := by
  have placed : ∀ {before l rest C}, c.At before l rest → c.Carries policy before (l :: rest) C →
      c.Placed f names policy before l rest C := by
    intro before l rest C hat hC
    exact ⟨⟨hrules, hat, hC, hfit⟩, hnamed l (by rw [hat]; simp)⟩
  induction h generalizing index with
  | select hin hC => exact (placed hlinks hC).simulates_project hin
  | @step before rest input output l C stages more hin hC hblock hrest ih =>
    have hlinks' := At.links_cons hlinks
    have hplaced := placed hlinks hC
    cases hblock with
    | generator hk => exact hplaced.simulates_generate hin hk (ih hlinks' _)
    | forward hk hnone => exact hplaced.simulates_predicate hin hk hnone hveto (ih hlinks' _)
    | guard hk hsome hout =>
      refine hplaced.simulates_guard hin hk hsome hveto hout ?_
      subst hout
      exact (ih hlinks' _).unwrap
    | guardLast hk hsome hout => exact hplaced.simulates_guard hin hk hsome hveto hout (ih hlinks' _)
    | define hk => exact hplaced.simulates_extend hin hk (ih hlinks' _)
    | unpack hk => exact hplaced.simulates_destructure hin hk (ih hlinks' _)

/-! ### Variables that are never null -/

/-- Tests bind no null, so a variable of the clause is null only if the clause assigns to it. -/
theorem Placed.own_ne_null (h : c.Placed f names policy before l rest C) (honly : HoldsOnly C locals)
    (hassign : ¬ l.AssignsOwn) {w : Value} {locals' : Store}
    (heval : l.term.Evaluated (l.setting names) locals w locals')
    (hm : c.Mirrors before l C locals' env) {b : BindingId} (hb : b ∈ l.patterns.ids) : env b ≠ some .null := by
  obtain ⟨bd, hbd, -⟩ := h.place.pattern_id h.rules.formed hb
  have hbound := h.place.own_bound h.rules.formed hb hbd
  obtain ⟨captures, captures', heval⟩ := heval
  rw [← hm.own b hb bd hbd]
  refine Term.eval_keeps (P := fun m => m.locals.get? bd.name ≠ some .null) ?_ ?_ ?_ heval
  · intro t ht x hmention v m m' hm' hstore
    have hne : x ≠ bd.name := fun heq => hassign ⟨t, ht, x, heq ▸ hbound, hmention⟩
    rcases Eval.store_eq_ok.1 hstore with ⟨-, rfl⟩ | ⟨-, -, rfl⟩
    · simpa only [Store.get?_insert, if_neg hne] using hm'
    · exact hm'
  · intro o q e x _ v m hbinds hm'
    by_cases heq : x = bd.name
    · simpa only [heq, Store.get?_insert, if_pos, ne_eq, Option.some.injEq] using Test.Binds.ne_null hbinds
    · simpa only [Store.get?_insert, if_neg heq] using hm'
  · -- it does not come in, so it has no value at first
    have hnone := h.own_free honly (List.mem_append_right _ hb) hbd
    simp [hnone]

private theorem marksNull_vetoesNull : c.MarksNull f names policy c.vetoesNull := fun _ _ _ _ _ _ _ _ _ _ _ _ => rfl

/-- If no filter assigns a variable of its own, null is never taken for a failure. -/
theorem marksNull_vetoesNothing (hassign : ∀ l ∈ c.links, l.kind = .filter → ¬ l.AssignsOwn) :
    c.MarksNull f names policy vetoesNothing := by
  intro before l rest C locals locals' env h hk honly heval hm
  refine (Bool.eq_false_iff.2 fun hveto => ?_).symm
  unfold vetoesNull at hveto
  split at hveto
  · rename_i b _
    simp only [Bool.and_eq_true, beq_iff_eq] at hveto
    obtain ⟨⟨hb, -⟩, hnull⟩ := hveto
    exact h.own_ne_null honly (hassign l h.place.mem_links hk) heval hm (List.contains_iff_mem.1 hb) hnull
  · cases hveto

/-! ### The source -/

private theorem KeepsRules.placed_source (h : c.KeepsRules f names policy) (hfit : c.PatternsFit) (hat : c.At [] l rest)
    (hnamed : l.NamesPresent) : c.Placed f names policy [] l rest ⟨0, []⟩ where
  rules := h
  place := hat
  carries := by
    refine ⟨fun fd hfd => (by cases hfd), List.nodup_nil, ?_⟩
    rintro b - ⟨l', hl', -⟩
    cases hl'
  fit := hfit
  named := hnamed

private theorem shows_nil : Shows [] ⟨0, []⟩ .empty .empty where
  only x := by simp [Store.contains, Store.empty, Store.get?, Store.find?]
  same fd hfd := by cases hfd
  known b hb := absurd rfl hb

/-- An element of the source shows the environment with the source's variable. -/
theorem KeepsRules.source_shows (h : c.KeepsRules f names policy) (hat : c.At [] l rest)
    (hknown : ∀ b, env b ≠ none → Introduces [l] b) (item : Value) :
    ∃ locals, (c.carrierOf 0 [⟨l.ranges.start⟩]).unpack? item = some locals ∧
      Shows [l] (c.carrierOf 0 [⟨l.ranges.start⟩]) locals (env.set ⟨l.ranges.start⟩ item) := by
  obtain ⟨cl, -, -, hsource, -⟩ := h.formed _ _ _ hat
  have hone := hat.ranges_one h.formed (Or.inl (hsource.2 rfl))
  have hstart : (⟨l.ranges.start⟩ : BindingId) ∈ l.ranges.ids := by rw [hone]; simp
  obtain ⟨bd, hbd, -⟩ := hat.range_id h.formed hstart
  have hfields : (c.carrierOf 0 [⟨l.ranges.start⟩]).fields = [⟨⟨l.ranges.start⟩, bd.name, bd.ty⟩] := by
    simp [carrierOf, hbd]
  have hunpack : (c.carrierOf 0 [⟨l.ranges.start⟩]).unpack? item = some (Store.empty.insert bd.name item) := by
    simp [Carrier.unpack?, hfields]
  refine ⟨_, hunpack, fun x => Carrier.unpack?_contains hunpack, fun fd hfd => ?_, ?_⟩
  · rw [hfields, List.mem_singleton] at hfd
    subst hfd
    simp [Store.get?_insert, Env.set]
  · exact Placed.set_known (List.mem_append_left _ hstart) hknown

end Chain

namespace Query

variable {q : Query} {names : SymbolTable} {policy : ScopePolicy} {p : Pipeline} {c : Chain}

private theorem Accepted.run_eq_loop {f : Flow} {first : Link} {rest : List Link}
    (h : q.Accepted names policy c f first rest p) (hfit : c.PatternsFit)
    (hsource : first.term.boundNames = [])
    (hnamed : ∀ l ∈ c.links, l.NamesPresent)
    {veto : Chain.Veto} (hveto : c.MarksNull f names policy veto) (captures : Store) :
    p.runWith names captures = c.nestedLoop names veto captures := by
  have hat : c.At [] first rest := h.links
  have hplaced := h.rules.placed_source hfit hat (hnamed first hat.mem_links)
  obtain ⟨cl, -, -, hkind, -⟩ := h.rules.formed _ _ _ hat
  have hsetting : first.setting names = ⟨names, []⟩ := by rw [Link.setting, hsource]
  have hlinks : c.links = [first].reverse ++ rest := by rw [h.links]; rfl
  have hsim := h.stages.simulates h.rules hfit hnamed hveto hlinks 0
  unfold Pipeline.runWith Chain.nestedLoop Pipeline.elements
  rw [h.links, Chain.loop_generator (Or.inl (hkind.2 rfl)), h.pool, h.source, ← hsetting, bind_assoc]
  refine congrArg (fun x : Run (List Value) => x.run captures) ?_
  refine (hplaced.evalWith_matches (Chain.shows_nil.mirrors hplaced)).bind_eq ?_
  rintro ⟨collection, locals⟩ ⟨_, env⟩ ⟨rfl, hm, -⟩
  refine Run.bind_ofExcept_congr fun items _ => ?_
  refine congrArg (Run.forEach · items) (funext fun item => ?_)
  obtain ⟨packed, hunpack, hshows⟩ := h.rules.source_shows hat (Chain.Placed.leave_known hm) item
  rw [h.carrier] at hsim
  exact hsim _ _ _ _ rfl hunpack hshows

/-- A run of an accepted query has the results, the final captures or the failure of its evaluation by nested loops,
where a filter that hands on nothing but one variable of its own, of a type without null, turns a null in it down.
If no filter assigns a variable of its own, the filters need not turn anything down. -/
theorem run_eq_nestedLoop (h : q.lower names policy = .ok p) (hc : q.chain = .ok c) (hfit : c.PatternsFit)
    (hsource : ∀ l ∈ c.links.head?, l.term.boundNames = [])
    (hnamed : ∀ l ∈ c.links, l.NamesPresent)
    (captures : Store) :
    p.runWith names captures = c.nestedLoop names c.vetoesNull captures ∧
      ((∀ l ∈ c.links, l.kind = .filter → ¬ l.AssignsOwn) →
        p.runWith names captures = c.nestedLoop names Chain.vetoesNothing captures) := by
  obtain ⟨c', f, first, rest, hacc⟩ := lower_eq_ok h
  obtain rfl : c' = c := Except.ok.inj (hacc.chain.symm.trans hc)
  have hfirst : first.term.boundNames = [] := hsource first (by rw [hacc.links]; rfl)
  refine ⟨hacc.run_eq_loop hfit hfirst hnamed Chain.marksNull_vetoesNull captures, fun hassign => ?_⟩
  exact hacc.run_eq_loop hfit hfirst hnamed (Chain.marksNull_vetoesNothing hassign) captures

/-- Loops, a filter with a variable that is used later, and parts: `from x in [1, 2] from y in [x, null]
where y is int i && (n = i) == i let (a, b) = (i, x) select (a, n)`. -/
def pairs : Query where
  pool :=
    { nodes := #[⟨.literal (.int 1), ⟨0, 1⟩⟩, ⟨.literal (.int 2), ⟨2, 3⟩⟩, ⟨.row .list ⟨0, 2⟩, ⟨4, 5⟩⟩,
        ⟨.ident ⟨1⟩, ⟨6, 7⟩⟩, ⟨.literal .null, ⟨8, 9⟩⟩, ⟨.row .list ⟨2, 2⟩, ⟨10, 11⟩⟩, ⟨.ident ⟨2⟩, ⟨12, 13⟩⟩,
        ⟨.test (.hasType .int) ⟨6⟩ ⟨3⟩, ⟨14, 15⟩⟩, ⟨.ident ⟨3⟩, ⟨16, 17⟩⟩, ⟨.assign ⟨6⟩ ⟨8⟩, ⟨18, 19⟩⟩,
        ⟨.ident ⟨3⟩, ⟨20, 21⟩⟩, ⟨.operator .eq ⟨9⟩ ⟨10⟩, ⟨22, 23⟩⟩, ⟨.connective .and ⟨7⟩ ⟨11⟩, ⟨24, 25⟩⟩,
        ⟨.ident ⟨3⟩, ⟨26, 27⟩⟩, ⟨.ident ⟨1⟩, ⟨28, 29⟩⟩, ⟨.row .tuple ⟨4, 2⟩, ⟨30, 31⟩⟩, ⟨.ident ⟨4⟩, ⟨32, 33⟩⟩,
        ⟨.ident ⟨6⟩, ⟨34, 35⟩⟩, ⟨.row .tuple ⟨6, 2⟩, ⟨36, 37⟩⟩]
      lists := #[⟨0⟩, ⟨1⟩, ⟨3⟩, ⟨4⟩, ⟨13⟩, ⟨14⟩, ⟨16⟩, ⟨17⟩] }
  clauses :=
    [⟨.source, ⟨2⟩, .one ⟨1⟩, .int, ⟨0, 1⟩⟩, ⟨.generator, ⟨5⟩, .one ⟨2⟩, .object, ⟨0, 1⟩⟩,
      ⟨.filter, ⟨12⟩, .none, .bool, ⟨0, 1⟩⟩, ⟨.unpack, ⟨15⟩, .many [⟨4⟩, ⟨5⟩], .tuple [.int, .int], ⟨0, 1⟩⟩,
      ⟨.select, ⟨18⟩, .none, .tuple [.int, .int], ⟨0, 1⟩⟩]

/-- The spellings of its names. -/
def pairNames : SymbolTable := ⟨#["", "x", "y", "i", "a", "b", "n"]⟩

theorem pairs_run_eq_nestedLoop : ∃ p c, pairs.lower pairNames .unique = .ok p ∧ pairs.chain = .ok c ∧
    (c.PatternsFit ∧ (∀ l ∈ c.links.head?, l.term.boundNames = []) ∧ (∀ l ∈ c.links, l.NamesPresent) ∧
      ∀ l ∈ c.links, l.kind = .filter → ¬ l.AssignsOwn) ∧
    c.nestedLoop pairNames c.vetoesNull (.ofList [(⟨6⟩, .int 0)]) =
      .ok ([.tuple [.int 1, .int 1], .tuple [.int 2, .int 2]], .ofList [(⟨6⟩, .int 2)]) ∧
    c.nestedLoop pairNames Chain.vetoesNothing (.ofList [(⟨6⟩, .int 0)]) =
      .ok ([.tuple [.int 1, .int 1], .tuple [.int 2, .int 2]], .ofList [(⟨6⟩, .int 2)]) := by
  obtain ⟨p, hp⟩ : ∃ p, pairs.lower pairNames .unique = .ok p := ⟨_, rfl⟩
  have hrun : (pairs.lower pairNames .unique).toOption.map
      (fun p => p.runWith pairNames (.ofList [(⟨6⟩, .int 0)])) =
        some (.ok ([.tuple [.int 1, .int 1], .tuple [.int 2, .int 2]], .ofList [(⟨6⟩, .int 2)])) := by cbv
  rw [hp] at hrun
  obtain ⟨c, f, first, rest, hacc⟩ := lower_eq_ok hp
  have hconds : pairs.chain.toOption.map (fun c => decide (c.PatternsFit ∧
      (∀ l ∈ c.links.head?, l.term.boundNames = []) ∧ (∀ l ∈ c.links, l.NamesPresent) ∧
        ∀ l ∈ c.links, l.kind = .filter → ¬ l.AssignsOwn)) = some true := by cbv
  rw [hacc.chain] at hconds
  have hconds := of_decide_eq_true (Option.some.inj hconds)
  obtain ⟨hfit, hsource, hnamed, hassign⟩ := hconds
  obtain ⟨hvetoed, hplain⟩ := run_eq_nestedLoop hp hacc.chain hfit hsource hnamed (.ofList [(⟨6⟩, .int 0)])
  refine ⟨p, c, hp, hacc.chain, ⟨hfit, hsource, hnamed, hassign⟩, ?_, ?_⟩
  · rw [← hvetoed]
    exact Option.some.inj hrun
  · rw [← hplain hassign]
    exact Option.some.inj hrun

/-- A filter that assigns null to its own variable: `from x in [7]
where x is int i && (i = null) == null select i`. -/
def nulled : Query where
  pool :=
    { nodes := #[⟨.literal (.int 7), ⟨0, 1⟩⟩, ⟨.row .list ⟨0, 1⟩, ⟨2, 3⟩⟩, ⟨.ident ⟨1⟩, ⟨4, 5⟩⟩,
        ⟨.test (.hasType .int) ⟨2⟩ ⟨2⟩, ⟨6, 7⟩⟩, ⟨.literal .null, ⟨8, 9⟩⟩, ⟨.assign ⟨2⟩ ⟨4⟩, ⟨10, 11⟩⟩,
        ⟨.literal .null, ⟨12, 13⟩⟩, ⟨.operator .eq ⟨5⟩ ⟨6⟩, ⟨14, 15⟩⟩, ⟨.connective .and ⟨3⟩ ⟨7⟩, ⟨16, 17⟩⟩,
        ⟨.ident ⟨2⟩, ⟨18, 19⟩⟩]
      lists := #[⟨0⟩] }
  clauses :=
    [⟨.source, ⟨1⟩, .one ⟨1⟩, .object, ⟨0, 1⟩⟩, ⟨.filter, ⟨8⟩, .none, .bool, ⟨0, 1⟩⟩,
      ⟨.select, ⟨9⟩, .none, .int, ⟨0, 1⟩⟩]

/-- The spellings of its names. -/
def nulledNames : SymbolTable := ⟨#["", "x", "i"]⟩

/-- The condition holds, and the loops without a veto give null; the run takes the null for a failure and gives
nothing. -/
theorem nulled_run_ne_nestedLoop : ∃ p c, nulled.lower nulledNames .unique = .ok p ∧ nulled.chain = .ok c ∧
    (c.PatternsFit ∧ (∀ l ∈ c.links.head?, l.term.boundNames = []) ∧ ∀ l ∈ c.links, l.NamesPresent) ∧
    p.runWith nulledNames .empty = .ok ([], .empty) ∧
    c.nestedLoop nulledNames Chain.vetoesNothing .empty = .ok ([.null], .empty) := by
  obtain ⟨p, hp⟩ : ∃ p, nulled.lower nulledNames .unique = .ok p := ⟨_, rfl⟩
  have hrun : (nulled.lower nulledNames .unique).toOption.map (fun p => p.runWith nulledNames .empty) =
      some (.ok ([], .empty)) := by cbv
  rw [hp] at hrun
  obtain ⟨c, f, first, rest, hacc⟩ := lower_eq_ok hp
  have hconds : nulled.chain.toOption.map (fun c => decide (c.PatternsFit ∧
      (∀ l ∈ c.links.head?, l.term.boundNames = []) ∧ ∀ l ∈ c.links, l.NamesPresent)) = some true := by cbv
  have hloop : nulled.chain.toOption.map (fun c => c.nestedLoop nulledNames Chain.vetoesNothing .empty) =
      some (.ok ([.null], .empty)) := by cbv
  rw [hacc.chain] at hconds hloop
  exact ⟨p, c, hp, hacc.chain, of_decide_eq_true (Option.some.inj hconds), Option.some.inj hrun,
    Option.some.inj hloop⟩

end Query

end QueryPipeline
