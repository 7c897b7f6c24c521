import QueryPipeline.Proofs.Lowering
import QueryPipeline.Proofs.Packing
import QueryPipeline.Proofs.Reach

/-!
# What the stages of an accepted query meet

A stage gets a value of the shape it takes in, and gives out values of the shape that the next one takes in.  Making
a carrier never fails, since all its variables have values by then (`KeepsRules.planned_held`).  So a run keeps every
invariant of the captures that the expressions of the clauses keep, and it fails only as these expressions fail or
with a value that does not fit (`Query.Accepted.meets`).
-/

namespace QueryPipeline

open QueryPipeline.Computation (Meets)

/-! ### Expressions of a stage -/

namespace Pool

variable {p : Pool} {g : Setting} {i : NodeId} {t : Term} {locals captures : Store}

theorem eval_of_term (h : p.term? i = some t) : p.eval g i = t.eval g := by
  obtain ⟨hcomplete, rfl⟩ := term?_eq_some.1 h
  exact eval_eq hcomplete g

theorem evalWith_eq_ok (h : p.term? i = some t) {r : Value × Store} {captures' : Store} :
    p.evalWith g i locals captures = .ok (r, captures') ↔
      t.eval g ⟨locals, captures⟩ = .ok (r.1, ⟨r.2, captures'⟩) := by
  unfold evalWith
  rw [eval_of_term h]
  cases ht : t.eval g ⟨locals, captures⟩ with
  | error e =>
    constructor
    · intro h'
      cases h'
    · intro h'
      cases h'
  | ok vm =>
    obtain ⟨v, m⟩ := vm
    obtain ⟨u, store⟩ := r
    constructor
    · intro h'
      obtain ⟨hr, rfl⟩ := Prod.mk.inj (Except.ok.inj h')
      obtain ⟨rfl, rfl⟩ := Prod.mk.inj hr
      rfl
    · intro h'
      obtain ⟨rfl, rfl⟩ := Prod.mk.inj (Except.ok.inj h')
      rfl

theorem evalWith_eq_error (h : p.term? i = some t) {e : Failure Fault} :
    p.evalWith g i locals captures = .error e ↔ t.eval g ⟨locals, captures⟩ = .error e := by
  unfold evalWith
  rw [eval_of_term h]
  cases ht : t.eval g ⟨locals, captures⟩ with
  | error e' =>
    constructor
    · intro h'
      rw [Except.error.inj h']
    · intro h'
      rw [Except.error.inj h']
      rfl
  | ok vm =>
    constructor
    · intro h'
      cases h'
    · intro h'
      cases h'

end Pool

/-- What a clause's expression is evaluated for. -/
def Link.setting (l : Link) (names : SymbolTable) : Setting := ⟨names, l.term.boundNames⟩

theorem Chain.At.own_declared {c : Chain} {before rest : List Link} {l : Link} {x : Symbol} {b : BindingId}
    (hat : c.At before l rest) (hc : c.Formed) (names : SymbolTable) (hr : c.resolve x l before = .sameClause b) :
    (l.setting names).declared.contains x = true := by
  obtain ⟨hb, bd, hbd, rfl⟩ := resolve_eq_sameClause hr
  exact List.contains_iff_mem.2 (hat.own_bound hc hb hbd)

theorem Stage.step_of_term {p : Pool} {names : SymbolTable} {index : Nat} {s : Stage NodeId} {v : Value} {l : Link}
    (hs : s.body.expr? = some l.expr) (ht : p.term? l.expr = some l.term) :
    s.step p names index v = s.stepWith p (l.setting names) index v := by
  unfold Stage.step Body.declared?
  rw [hs]
  simp only [ht, Option.map_some]
  rfl

/-- Some evaluation of the term from these variables gives the value and leaves these variables. -/
def Term.Evaluated (g : Setting) (t : Term) (locals : Store) (v : Value) (locals' : Store) : Prop :=
  ∃ captures captures', t.eval g ⟨locals, captures⟩ = .ok (v, ⟨locals', captures'⟩)

private theorem Term.Evaluated.grow {g : Setting} {t : Term} {locals locals' : Store} {v : Value} {x : Symbol}
    (h : t.Evaluated g locals v locals') (hx : locals.contains x = true) : locals'.contains x = true := by
  obtain ⟨captures, captures', heval⟩ := h
  exact Term.eval_locals_grow heval hx

/-! ### Rows of values -/

namespace Run

variable {I : Store → Prop} {E : Failure Fault → Prop} {A : Value → Prop}

private theorem forEach_meets {f : Value → Run (List Value)}
    (hf : ∀ v, A v → Meets I (f v) (fun _ captures => I captures) E) {vs : List Value} (hvs : ∀ v ∈ vs, A v) :
    Meets I (forEach f vs) (fun _ captures => I captures) E := by
  induction vs with
  | nil => exact .pure fun _ h => h
  | cons v vs ih =>
    refine .bind (hf v (hvs v (by simp))) fun ws => ?_
    exact .bind (ih fun w hw => hvs w (List.mem_cons_of_mem _ hw)) fun us => .pure fun _ h => h

/-- A stage that gives out values with `A`, and stages that go on from such values. -/
theorem through_meets {p : Pool} {names : SymbolTable} {index : Nat} {s : Stage NodeId} {rest : List (Stage NodeId)}
    {v : Value} (hs : Meets I (s.step p names index v) (fun ws captures => I captures ∧ ∀ w ∈ ws, A w) E)
    (hrest : ∀ w, A w → Meets I (through p names (index + 1) rest w) (fun _ captures => I captures) E) :
    Meets I (through p names index (s :: rest) v) (fun _ captures => I captures) E :=
  .bind hs fun _ => .of_imp fun hws => forEach_meets hrest hws

end Run

theorem Computation.Meets.known {σ α : Type} {P : σ → Prop} {x : Computation σ α} {Q : α → σ → Prop}
    {E : Failure Fault → Prop} (h : Meets P x Q E) :
    Meets P x (fun a s' => Q a s' ∧ ∃ s, x s = .ok (a, s')) E :=
  fun s hs => ⟨fun a s' ha => ⟨(h s hs).1 a s' ha, s, ha⟩, (h s hs).2⟩

/-! ### Variables of the next carrier -/

namespace Carrier

variable {C : Carrier} {locals : Store} {id : BindingId} {v : Value} {x : Symbol} {fd : Field}

theorem addTo_grow (h : locals.contains x = true) : (C.addTo locals id v).contains x = true := by
  unfold addTo
  split
  · simp [Store.contains_insert, h]
  · exact h

theorem find?_eq (hnd : (C.fields.map Field.binding).Nodup) (hf : fd ∈ C.fields) : C.find? fd.binding = some fd := by
  unfold find?
  generalize C.fields = fields at hnd hf
  induction fields with
  | nil => cases hf
  | cons g fields ih =>
    rw [List.map_cons, List.nodup_cons] at hnd
    rcases List.mem_cons.1 hf with rfl | hf
    · simp
    · have hne : g.binding ≠ fd.binding := fun heq => hnd.1 (List.mem_map.2 ⟨fd, hf, heq.symm⟩)
      rw [List.find?_cons_of_neg (by simpa using hne)]
      exact ih hnd.2 hf

private theorem addTo_contains (hnd : (C.fields.map Field.binding).Nodup) (hf : fd ∈ C.fields) :
    (C.addTo locals fd.binding v).contains fd.name = true := by
  unfold addTo
  rw [find?_eq hnd hf]
  simp [Store.contains_insert]

private theorem extract_grow {composite : Value} {parts : List (BindingId × Nat)} {locals' : Store}
    (h : C.extract composite locals parts = .ok locals') (hx : locals.contains x = true) :
    locals'.contains x = true := by
  induction parts generalizing locals with
  | nil =>
    obtain rfl := Except.ok.inj h
    exact hx
  | cons q parts ih =>
    rw [extract] at h
    split at h
    · exact ih h (addTo_grow hx)
    · cases h

private theorem extract_contains {composite : Value} {parts : List (BindingId × Nat)} {locals' : Store}
    (h : C.extract composite locals parts = .ok locals') (hnd : (C.fields.map Field.binding).Nodup)
    (hf : fd ∈ C.fields) (hp : ∃ q ∈ parts, q.1 = fd.binding) : locals'.contains fd.name = true := by
  induction parts generalizing locals with
  | nil =>
    obtain ⟨q, hq, -⟩ := hp
    cases hq
  | cons q parts ih =>
    rw [extract] at h
    split at h
    · obtain ⟨q', hq', heq⟩ := hp
      rcases List.mem_cons.1 hq' with rfl | hq'
      · rw [heq] at h
        exact extract_grow h (addTo_contains hnd hf)
      · exact ih h ⟨q', hq', heq⟩
    · cases h

private theorem extract_fault {composite : Value} {parts : List (BindingId × Nat)} {f : Fault}
    (h : C.extract composite locals parts = .error f) : f.OfValue := by
  induction parts generalizing locals with
  | nil => cases h
  | cons q parts ih =>
    rw [extract] at h
    split at h
    · exact ih h
    · rename_i hf
      obtain rfl := Except.error.inj h
      exact Value.part_fault hf

/-- Making a carrier succeeds if its variables have values, and what is made can be taken apart. -/
theorem pack_meets {names : SymbolTable} {I : Store → Prop} {E : Failure Fault → Prop}
    (hheld : ∀ fd ∈ C.fields, locals.contains fd.name = true) :
    Meets I (Computation.ofExcept (C.pack names locals) : Run Value)
      (fun u captures => I captures ∧ C.unpack? u ≠ none) E := by
  obtain ⟨u, hu⟩ := pack_isOk names hheld
  rw [hu]
  exact .pure fun captures hI => ⟨hI, unpack?_of_pack hu⟩

private theorem packEach_isOk (names : SymbolTable) (items : List Value)
    (hheld : ∀ item, ∀ fd ∈ C.fields, (C.addTo locals id item).contains fd.name = true) :
    ∃ ws, C.packEach names locals id items = .ok ws ∧ ∀ w ∈ ws, C.unpack? w ≠ none := by
  induction items with
  | nil => exact ⟨[], rfl, by simp⟩
  | cons item items ih =>
    obtain ⟨ws, hws, hfits⟩ := ih
    obtain ⟨u, hu⟩ := pack_isOk names (hheld item)
    refine ⟨u :: ws, by rw [packEach, hu]; simp [hws, Except.map], fun w hw => ?_⟩
    rcases List.mem_cons.1 hw with rfl | hw
    · exact unpack?_of_pack hu
    · exact hfits w hw

end Carrier

namespace Chain

variable {c : Chain} {f : Flow} {names : SymbolTable} {policy : ScopePolicy}
variable {before rest : List Link} {l : Link} {C : Carrier} {locals locals' : Store}

/-- The variables at hand are exactly those of the carrier. -/
def HoldsOnly (C : Carrier) (locals : Store) : Prop :=
  ∀ x, locals.contains x = true ↔ ∃ f ∈ C.fields, f.name = x

/-- All variables of the next carrier have values, if those have that the clause introduces. -/
theorem KeepsRules.planned_held (h : c.KeepsRules f names policy) (hat : c.At before l rest)
    (hC : c.Carries policy before (l :: rest) C) (hlocals : HoldsOnly C locals)
    (hgrow : ∀ x, locals.contains x = true → locals'.contains x = true)
    (hown : ∀ fd ∈ (c.planned before l rest).fields, fd.binding ∈ l.ids → locals'.contains fd.name = true) :
    ∀ fd ∈ (c.planned before l rest).fields, locals'.contains fd.name = true := by
  intro fd hfd
  obtain ⟨⟨l', hl', hid⟩, hread, bd, hbd, hname, -⟩ := (h.mem_planned hat).1 hfd
  rcases List.mem_cons.1 hl' with rfl | hl'
  · exact hown fd hfd hid
  · -- it comes in, under the name that the table has
    obtain ⟨fd', hfd', -, hname'⟩ := hC.exists_field (readIn_cons.2 (Or.inr hread)) ⟨l', hl', hid⟩ hbd
    exact hgrow _ ((hlocals _).2 ⟨fd', hfd', by rw [hname', hname]⟩)

/-- A clause that is no filter hands on only its range variables. -/
theorem KeepsRules.planned_range (h : c.KeepsRules f names policy) (hat : c.At before l rest)
    (hk : l.kind ≠ .filter) {fd : Field} (hfd : fd ∈ (c.planned before l rest).fields) (hid : fd.binding ∈ l.ids) :
    fd.binding ∈ l.ranges.ids := by
  rcases List.mem_append.1 hid with hid | hid
  · exact hid
  · obtain ⟨-, bd, hbd, -, -, hlast⟩ := (h.carries_planned hat).sound fd hfd
    exact absurd (hat.pattern_lasts h.formed hid hbd hlast).1 hk

private theorem planned_bound (h : c.KeepsRules f names policy) (hat : c.At before l rest) (hk : l.kind = .filter)
    (heval : l.term.Evaluated (l.setting names) locals (.bool true) locals')
    {fd : Field} (hfd : fd ∈ (c.planned before l rest).fields) (hid : fd.binding ∈ l.ids) :
    locals'.contains fd.name = true := by
  unfold Link.ids at hid
  rw [hat.ranges_none h.formed hk, List.nil_append] at hid
  obtain ⟨-, bd, hbd, hname, -, hlast⟩ := (h.carries_planned hat).sound fd hfd
  obtain ⟨-, hcond, hbound⟩ := hat.pattern_lasts h.formed hid hbd hlast
  have hdeclared : (l.setting names).declared.contains bd.name = true := List.contains_iff_mem.2 hbound
  have hassigned : (l.term.assigned bd.name).whenTrue = true := by
    unfold Term.condition at hcond
    split at hcond
    · assumption
    · split at hcond <;> cases hcond
  obtain ⟨captures, captures', heval⟩ := heval
  rw [hname]
  exact (Term.assigned_sound hdeclared heval).whenTrue hassigned rfl

/-- When a filter holds, the variables of the next carrier have values. -/
theorem KeepsRules.held_filter (h : c.KeepsRules f names policy) (hat : c.At before l rest)
    (hC : c.Carries policy before (l :: rest) C) (hlocals : HoldsOnly C locals) (hk : l.kind = .filter)
    (heval : l.term.Evaluated (l.setting names) locals (.bool true) locals') :
    ∀ fd ∈ (c.planned before l rest).fields, locals'.contains fd.name = true :=
  h.planned_held hat hC hlocals (fun _ hx => heval.grow hx) fun _ hfd hid => planned_bound h hat hk heval hfd hid

/-- With the one variable that the clause names, the variables of the next carrier have values. -/
theorem KeepsRules.held_range (h : c.KeepsRules f names policy) (hat : c.At before l rest)
    (hC : c.Carries policy before (l :: rest) C) (hlocals : HoldsOnly C locals)
    (hk : l.kind = .generator ∨ l.kind = .define) {v : Value}
    (heval : l.term.Evaluated (l.setting names) locals v locals') (w : Value) :
    ∀ fd ∈ (c.planned before l rest).fields,
      ((c.planned before l rest).addTo locals' ⟨l.ranges.start⟩ w).contains fd.name = true := by
  refine h.planned_held hat hC hlocals (fun x hx => Carrier.addTo_grow (heval.grow hx)) fun fd hfd hid => ?_
  have hfilter : l.kind ≠ .filter := by rcases hk with hk | hk <;> rw [hk] <;> simp
  have hrange := h.planned_range hat hfilter hfd hid
  rw [hat.ranges_one h.formed (Or.inr hk), List.mem_singleton] at hrange
  rw [← hrange]
  exact Carrier.addTo_contains (h.carries_planned hat).nodup hfd

/-- With the parts that are taken out, the variables of the next carrier have values. -/
theorem KeepsRules.held_parts (h : c.KeepsRules f names policy) (hat : c.At before l rest)
    (hC : c.Carries policy before (l :: rest) C) (hlocals : HoldsOnly C locals) (hk : l.kind = .unpack) {v : Value}
    (heval : l.term.Evaluated (l.setting names) locals v locals') {locals'' : Store}
    (hex : (c.planned before l rest).extract v locals'
      (l.ranges.ids.zipIdx.filter fun q => (c.planned before l rest).contains q.1) = .ok locals'') :
    ∀ fd ∈ (c.planned before l rest).fields, locals''.contains fd.name = true := by
  refine h.planned_held hat hC hlocals (fun x hx => Carrier.extract_grow hex (heval.grow hx)) fun fd hfd hid => ?_
  have hrange := h.planned_range hat (by rw [hk]; simp) hfd hid
  -- the part is among those taken out, since it is carried on
  obtain ⟨i, hi, heq⟩ := List.getElem_of_mem hrange
  refine Carrier.extract_contains hex (h.carries_planned hat).nodup hfd ⟨(fd.binding, i), ?_, rfl⟩
  rw [List.mem_filter]
  refine ⟨?_, Carrier.contains_iff.2 ⟨fd, hfd, rfl⟩⟩
  rw [List.mem_iff_getElem]
  exact ⟨i, by simpa using hi, by simp [heq]⟩

end Chain

/-! ### Stages of a clause -/

theorem Shape.unpack?_holdsOnly {s : Shape} {C : Carrier} {v : Value} {locals : Store} (hs : s.carrier? = some C)
    (h : s.unpack? v = some locals) : Chain.HoldsOnly C locals := by
  intro x
  cases s with
  | carrier C' =>
    obtain rfl := Option.some.inj hs
    exact Carrier.unpack?_contains h
  | outcome C' encoding =>
    obtain rfl := Option.some.inj hs
    obtain ⟨u, -, hu⟩ := Option.bind_eq_some_iff.1 h
    exact Carrier.unpack?_contains hu
  | projection ty => cases hs

/-- A clause in its chain with what comes in, an invariant that its expression keeps, and what it can fail with. -/
structure Chain.ClauseRun (c : Chain) (f : Flow) (names : SymbolTable) (policy : ScopePolicy) (p : Pool)
    (before : List Link) (l : Link) (rest : List Link) (C : Carrier) (I : Store → Prop) (E : Failure Fault → Prop) :
    Prop where
  rules : c.KeepsRules f names policy
  place : c.At before l rest
  carries : c.Carries policy before (l :: rest) C
  term : p.term? l.expr = some l.term
  eval : ∀ locals, Chain.HoldsOnly C locals →
    Meets I (p.evalWith (l.setting names) l.expr locals) (fun _ captures => I captures) E
  value : ∀ f : Fault, f.OfValue → E (.error f)

namespace Chain.ClauseRun

variable {c : Chain} {f : Flow} {names : SymbolTable} {policy : ScopePolicy} {p : Pool}
variable {before rest : List Link} {l : Link} {C : Carrier} {I : Store → Prop} {E : Failure Fault → Prop}
variable {input : Shape} {index k : Nat} {v : Value}

private theorem evalWith_meets (h : c.ClauseRun f names policy p before l rest C I E) {locals : Store}
    (hl : HoldsOnly C locals) :
    Meets I (p.evalWith (l.setting names) l.expr locals)
      (fun r captures => I captures ∧ l.term.Evaluated (l.setting names) locals r.1 r.2) E := by
  refine (h.eval locals hl).known.mono fun r captures' hr => ⟨hr.1, ?_⟩
  obtain ⟨-, captures, hr⟩ := hr
  exact ⟨captures, captures', (Pool.evalWith_eq_ok h.term).1 hr⟩

private theorem holdsWith_meets (h : c.ClauseRun f names policy p before l rest C I E) {locals : Store}
    (hl : HoldsOnly C locals) :
    Meets I (p.holdsWith (l.setting names) l.expr locals)
      (fun r captures => I captures ∧ l.term.Evaluated (l.setting names) locals (.bool r.1) r.2) E := by
  refine .bind (h.evalWith_meets hl) fun r => .of_imp fun hr => ?_
  refine .bind (.ofExcept fun f hf => h.value f (Value.asBool_fault hf)) fun b => .of_imp fun hb => ?_
  refine .pure fun captures hI => ⟨hI, ?_⟩
  rw [Value.asBool_eq_ok.1 hb] at hr
  exact hr

private theorem project_meets (h : c.ClauseRun f names policy p before l rest C I E) (hin : input.carrier? = some C)
    (hv : input.unpack? v ≠ none) :
    Meets I ((l.selection k input).step p names index v) (fun ws captures => I captures ∧ ∀ w ∈ ws, True) E := by
  rw [Stage.step_of_term rfl h.term]
  refine .bind (.ofOption hv) fun locals => .of_imp fun hl => ?_
  refine .bind (h.eval locals (Shape.unpack?_holdsOnly hin hl)) fun r => ?_
  exact .pure fun captures hI => ⟨hI, fun _ _ => trivial⟩

private theorem predicate_meets (h : c.ClauseRun f names policy p before l rest C I E) (hin : input.carrier? = some C)
    (hv : input.unpack? v ≠ none) :
    Meets I (Stage.step p names index ⟨.filter, input, input, .predicate l.expr, k⟩ v)
      (fun ws captures => I captures ∧ ∀ w ∈ ws, input.unpack? w ≠ none) E := by
  rw [Stage.step_of_term rfl h.term]
  refine .bind (.ofOption hv) fun locals => .of_imp fun hl => ?_
  refine .bind (h.holdsWith_meets (Shape.unpack?_holdsOnly hin hl)) fun r => ?_
  refine .pure fun captures hI => ⟨hI.1, fun w hw => ?_⟩
  split at hw
  · obtain rfl := List.mem_singleton.1 hw
    exact hv
  · cases hw

/-- What a guard gives out is an outcome; a success carries what is planned. -/
theorem guard_meets (h : c.ClauseRun f names policy p before l rest C I E) (hin : input.carrier? = some C)
    (hk : l.kind = .filter) (hv : input.unpack? v ≠ none) {encoding : Encoding} :
    Meets I (Stage.step p names index
        ⟨.map, input, .outcome (c.planned before l rest) encoding, .guard l.expr, k⟩ v)
      (fun ws captures => I captures ∧ ∀ w ∈ ws, ∃ o, encoding.read? w = some o ∧
        ∀ u, o = some u → (c.planned before l rest).unpack? u ≠ none) E := by
  rw [Stage.step_of_term rfl h.term]
  refine .bind (.ofOption hv) fun locals => .of_imp fun hl => ?_
  have hholds := Shape.unpack?_holdsOnly hin hl
  refine .bind (h.holdsWith_meets hholds) fun r => .of_imp fun hr => ?_
  obtain ⟨b, locals'⟩ := r
  cases b with
  | true =>
    have hheld := h.rules.held_filter h.place h.carries hholds hk hr
    refine .bind (Carrier.pack_meets hheld) fun u => .of_imp fun hu => .pure fun captures hI => ⟨hI, fun w hw => ?_⟩
    obtain rfl := List.mem_singleton.1 hw
    refine ⟨_, encoding.read?_write u, fun u' hu' => ?_⟩
    split at hu'
    · cases hu'
    · obtain rfl := Option.some.inj hu'
      exact hu
  | false =>
    refine .pure fun captures hI => ⟨hI, fun w hw => ?_⟩
    obtain rfl := List.mem_singleton.1 hw
    exact ⟨none, encoding.read?_write_none, fun u hu => (by cases hu)⟩

private theorem rejectAbsent_meets {C' : Carrier} {encoding : Encoding}
    (hv : ∃ o, encoding.read? v = some o ∧ ∀ u, o = some u → C'.unpack? u ≠ none) :
    Meets I (Stage.step p names index ⟨.filter, .outcome C' encoding, .outcome C' encoding, .rejectAbsent, k⟩ v)
      (fun ws captures => I captures ∧ ∀ w ∈ ws, (Shape.outcome C' encoding).unpack? w ≠ none) E := by
  obtain ⟨o, ho, hfits⟩ := hv
  refine .bind (.ofOption (by rw [ho]; simp)) fun payload => .of_imp fun hp => .pure fun captures hI => ⟨hI, ?_⟩
  intro w hw
  rw [ho] at hp
  obtain rfl := Option.some.inj hp
  cases o with
  | none => cases hw
  | some u =>
    obtain rfl := List.mem_singleton.1 hw
    simpa [Shape.unpack?, ho] using hfits u rfl

private theorem unwrap_meets {C' : Carrier} {encoding : Encoding} (hv : (Shape.outcome C' encoding).unpack? v ≠ none) :
    Meets I (Stage.step p names index ⟨.map, .outcome C' encoding, .carrier C', .unwrap, k⟩ v)
      (fun ws captures => I captures ∧ ∀ w ∈ ws, (Shape.carrier C').unpack? w ≠ none) E := by
  cases hread : (encoding.read? v).join with
  | none => simp [Shape.unpack?, hread] at hv
  | some u =>
    refine .bind (.ofOption (by rw [hread]; simp)) fun payload => .of_imp fun hp => ?_
    refine .pure fun captures hI => ⟨hI, fun w hw => ?_⟩
    obtain rfl := List.mem_singleton.1 hw
    rw [hread] at hp
    obtain rfl := Option.some.inj hp
    simpa [Shape.unpack?, hread] using hv

private theorem generate_meets (h : c.ClauseRun f names policy p before l rest C I E) (hin : input.carrier? = some C)
    (hk : l.kind = .generator) (hv : input.unpack? v ≠ none) :
    Meets I (Stage.step p names index ⟨.flatMap, input, .carrier (c.planned before l rest),
        .generate l.expr ⟨l.ranges.start⟩, k⟩ v)
      (fun ws captures => I captures ∧ ∀ w ∈ ws, (Shape.carrier (c.planned before l rest)).unpack? w ≠ none) E := by
  rw [Stage.step_of_term rfl h.term]
  refine .bind (.ofOption (by simp [Shape.carrier?])) fun C' => .of_imp fun hC' => ?_
  obtain rfl := Option.some.inj hC'
  refine .bind (.ofOption hv) fun locals => .of_imp fun hl => ?_
  have hholds := Shape.unpack?_holdsOnly hin hl
  refine .bind (h.evalWith_meets hholds) fun r => .of_imp fun hr => ?_
  obtain ⟨collection, locals'⟩ := r
  refine .bind (.ofExcept fun f hf => h.value f (Value.elements_fault hf)) fun items => .of_imp fun _ => ?_
  have hheld := h.rules.held_range h.place h.carries hholds (Or.inl hk) hr
  obtain ⟨ws, hws, hfits⟩ := Carrier.packEach_isOk names items hheld
  show Meets I (Computation.ofExcept ((c.planned before l rest).packEach names locals' _ items) : Run _) _ E
  rw [hws]
  exact .pure fun captures hI => ⟨hI, hfits⟩

private theorem extend_meets (h : c.ClauseRun f names policy p before l rest C I E) (hin : input.carrier? = some C)
    (hk : l.kind = .define) (hv : input.unpack? v ≠ none) :
    Meets I (Stage.step p names index ⟨.map, input, .carrier (c.planned before l rest),
        .extend [(⟨l.ranges.start⟩, l.expr)], k⟩ v)
      (fun ws captures => I captures ∧ ∀ w ∈ ws, (Shape.carrier (c.planned before l rest)).unpack? w ≠ none) E := by
  rw [Stage.step_of_term rfl h.term]
  refine .bind (.ofOption (by simp [Shape.carrier?])) fun C' => .of_imp fun hC' => ?_
  obtain rfl := Option.some.inj hC'
  refine .bind (.ofOption hv) fun locals => .of_imp fun hl => ?_
  have hholds := Shape.unpack?_holdsOnly hin hl
  have hadd : Meets I ((c.planned before l rest).extend p (l.setting names) locals [(⟨l.ranges.start⟩, l.expr)])
      (fun locals' captures => I captures ∧
        ∀ fd ∈ (c.planned before l rest).fields, locals'.contains fd.name = true) E := by
    refine .bind (h.evalWith_meets hholds) fun r => .of_imp fun hr => .pure fun captures hI => ⟨hI, ?_⟩
    exact h.rules.held_range h.place h.carries hholds (Or.inr hk) hr r.1
  refine .bind hadd fun locals' => .of_imp fun hheld => ?_
  refine .bind (Carrier.pack_meets hheld) fun u => .of_imp fun hu => .pure fun captures hI => ⟨hI, fun w hw => ?_⟩
  obtain rfl := List.mem_singleton.1 hw
  exact hu

private theorem destructure_meets (h : c.ClauseRun f names policy p before l rest C I E) (hin : input.carrier? = some C)
    (hk : l.kind = .unpack) (hv : input.unpack? v ≠ none) :
    Meets I (Stage.step p names index ⟨.map, input, .carrier (c.planned before l rest),
        .destructure l.expr (l.ranges.ids.zipIdx.filter fun q => (c.planned before l rest).contains q.1), k⟩ v)
      (fun ws captures => I captures ∧ ∀ w ∈ ws, (Shape.carrier (c.planned before l rest)).unpack? w ≠ none) E := by
  rw [Stage.step_of_term rfl h.term]
  refine .bind (.ofOption (by simp [Shape.carrier?])) fun C' => .of_imp fun hC' => ?_
  obtain rfl := Option.some.inj hC'
  refine .bind (.ofOption hv) fun locals => .of_imp fun hl => ?_
  have hholds := Shape.unpack?_holdsOnly hin hl
  refine .bind (h.evalWith_meets hholds) fun r => .of_imp fun hr => ?_
  obtain ⟨composite, locals'⟩ := r
  refine .bind (.ofExcept fun f hf => h.value f (Carrier.extract_fault hf)) fun locals'' => .of_imp fun hex => ?_
  have hheld := h.rules.held_parts h.place h.carries hholds hk hr hex
  refine .bind (Carrier.pack_meets hheld) fun u => .of_imp fun hu => .pure fun captures hI => ⟨hI, fun w hw => ?_⟩
  obtain rfl := List.mem_singleton.1 hw
  exact hu

end Chain.ClauseRun

/-! ### Runs -/

/-- The stages of the clauses keep what the clauses' expressions keep, and fail only as these do or with a value that
does not fit. -/
theorem Chain.Lowers.meets {c : Chain} {f : Flow} {names : SymbolTable} {policy : ScopePolicy} {I : Store → Prop}
    {E : Failure Fault → Prop} (hrules : c.KeepsRules f names policy)
    (heval : ∀ before l rest C locals, c.At before l rest → before ≠ [] → c.Carries policy before (l :: rest) C →
      HoldsOnly C locals →
      Meets I (c.pool.evalWith (l.setting names) l.expr locals) (fun _ captures => I captures) E)
    (hvalue : ∀ f : Fault, f.OfValue → E (.error f)) {before rest : List Link} {input : Shape}
    {stages : List (Stage NodeId)} (h : c.Lowers policy before input rest stages)
    (hlinks : c.links = before.reverse ++ rest) (hne : before ≠ []) {index : Nat} {v : Value}
    (hv : input.unpack? v ≠ none) :
    Meets I (Run.through c.pool names index stages v) (fun _ captures => I captures) E := by
  have run : ∀ {before l rest C}, c.At before l rest → before ≠ [] → c.Carries policy before (l :: rest) C →
      c.ClauseRun f names policy c.pool before l rest C I E := by
    intro before l rest C hat hne hC
    obtain ⟨cl, hof, -⟩ := hrules.formed _ _ _ hat
    exact ⟨hrules, hat, hC, by rw [hof.expr]; exact hof.term, fun locals => heval _ _ _ _ locals hat hne hC, hvalue⟩
  induction h generalizing index v with
  | select hin hC =>
    exact Run.through_meets ((run hlinks hne hC).project_meets hin hv) fun w _ => .pure fun captures hI => hI
  | @step before rest input output l C stages more hin hC hblock hrest ih =>
    have hlinks' := At.links_cons hlinks
    have hrun := run hlinks hne hC
    cases hblock with
    | generator hk => exact Run.through_meets (hrun.generate_meets hin hk hv) fun w hw => ih hlinks' (by simp) hw
    | forward hk hnone => exact Run.through_meets (hrun.predicate_meets hin hv) fun w hw => ih hlinks' (by simp) hw
    | guard hk hsome hout =>
      subst hout
      refine Run.through_meets (hrun.guard_meets hin hk hv) fun w hw => ?_
      refine Run.through_meets (ClauseRun.rejectAbsent_meets hw) fun u hu => ?_
      exact Run.through_meets (ClauseRun.unwrap_meets hu) fun u' hu' => ih hlinks' (by simp) hu'
    | guardLast hk hsome hout =>
      subst hout
      refine Run.through_meets (hrun.guard_meets hin hk hv) fun w hw => ?_
      exact Run.through_meets (ClauseRun.rejectAbsent_meets hw) fun u hu => ih hlinks' (by simp) hu
    | define hk => exact Run.through_meets (hrun.extend_meets hin hk hv) fun w hw => ih hlinks' (by simp) hw
    | unpack hk => exact Run.through_meets (hrun.destructure_meets hin hk hv) fun w hw => ih hlinks' (by simp) hw

/-- A run of an accepted query keeps what its source establishes and its other expressions keep, and fails only as
these do or with a value that does not fit. -/
theorem Query.Accepted.meets {q : Query} {names : SymbolTable} {policy : ScopePolicy} {c : Chain} {f : Flow}
    {first : Link} {rest : List Link} {p : Pipeline} (h : q.Accepted names policy c f first rest p)
    {I : Store → Prop} {E : Failure Fault → Prop} {captures : Store}
    (hsource : Meets (· = captures) (c.pool.evalWith ⟨names, []⟩ first.expr .empty) (fun _ captures => I captures) E)
    (heval : ∀ before l rest C locals, c.At before l rest → before ≠ [] → c.Carries policy before (l :: rest) C →
      Chain.HoldsOnly C locals →
      Meets I (c.pool.evalWith (l.setting names) l.expr locals) (fun _ captures => I captures) E)
    (hvalue : ∀ f : Fault, f.OfValue → E (.error f)) :
    (∀ out captures', p.runWith names captures = .ok (out, captures') → I captures') ∧
      ∀ e, p.runWith names captures = .error e → E e := by
  have hfits : ∀ v, (Shape.carrier p.sourceCarrier).unpack? v ≠ none := by
    intro v
    rw [h.carrier]
    cases hb : c.binding? ⟨first.ranges.start⟩ <;> simp [Shape.unpack?, Carrier.unpack?, Chain.carrierOf, hb]
  have hlinks : c.links = [first].reverse ++ rest := by rw [h.links]; rfl
  have hrun : Meets (· = captures) (do
      let items ← p.elements names
      Run.forEach (Run.through p.pool names 0 p.stages) items : Run (List Value))
        (fun _ captures => I captures) E := by
    have helements : Meets (· = captures) (p.elements names) (fun _ captures => I captures) E := by
      unfold Pipeline.elements
      rw [h.pool, h.source]
      refine .bind hsource fun r => ?_
      exact (Meets.ofExcept fun f hf => hvalue f (Value.elements_fault hf)).mono fun _ _ hI => hI.1
    refine .bind helements fun items => ?_
    rw [h.pool]
    exact Run.forEach_meets
      (fun v _ => h.stages.meets h.rules heval hvalue hlinks (by simp) (hfits v)) fun v _ => trivial
  exact hrun captures rfl

end QueryPipeline
