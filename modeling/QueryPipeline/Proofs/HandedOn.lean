import Mathlib
import QueryPipeline.Proofs.Carried
import QueryPipeline.Proofs.Outcomes
import QueryPipeline.Proofs.Visits
import QueryPipeline.Proofs.WellFormed

/-!
# What stages hand on

Carriers keep variables by name, while a clause knows them by binding.  The two agree: in a pipeline of an accepted
query the names in a carrier are distinct, and no test of a stage binds a name that comes in (`Query.names_apart`).

A stage hands its variables on, or makes those that its clause plans (`Chain.Hands`).  Either way a variable that
comes in and goes out has one value, and evaluating the stage's expression does not change it
(`Query.carried_immutable`).  Only a guard hands on something else, a mark of failure (`Stage.Fails`): when its
condition does not hold, or when it hands on a variable of its own and nothing more, which is null.
-/

namespace QueryPipeline

/-! ### Variables that a clause adds -/

namespace Chain

variable {c : Chain} {f : Flow} {names : SymbolTable} {policy : ScopePolicy}
variable {before rest before' rest' : List Link} {l : Link} {C D : Carrier} {locals locals' : Store} {fd fd' : Field}

/-- Fields of one binding are the same field, in whatever carriers. -/
theorem Carries.field_eq (hC : c.Carries policy before rest C) (hD : c.Carries policy before' rest' D)
    (hfd : fd ∈ C.fields) (hfd' : fd' ∈ D.fields) (heq : fd.binding = fd'.binding) : fd = fd' := by
  obtain ⟨-, bd, hbd, hname, hty, -⟩ := hC.sound fd hfd
  obtain ⟨-, bd', hbd', hname', hty', -⟩ := hD.sound fd' hfd'
  rw [← heq, hbd] at hbd'
  obtain rfl := Option.some.inj hbd'
  cases fd
  cases fd'
  simp_all

namespace Entered

private theorem addTo_kept (h : c.Entered f names policy before l rest C) (hfd : fd ∈ C.fields) {b : BindingId}
    (hb : b ∈ l.ids) (v : Value) :
    ((c.planned before l rest).addTo locals b v).get? fd.name = locals.get? fd.name := by
  unfold Carrier.addTo
  cases hfind : (c.planned before l rest).find? b with
  | none => rfl
  | some fd' =>
    have hfd' : fd' ∈ (c.planned before l rest).fields := List.mem_of_find?_eq_some hfind
    have hbinding : fd'.binding = b := by simpa using List.find?_some hfind
    obtain ⟨-, bd, hbd, hname, -⟩ := (h.rules.carries_planned h.place).sound fd' hfd'
    rw [hbinding] at hbd
    have hne : fd'.name ≠ fd.name := fun heq => h.field_ne hfd hb hbd (by rw [← heq, hname])
    simp only [Store.get?_insert, if_neg hne]

private theorem extract_kept (h : c.Entered f names policy before l rest C) (hfd : fd ∈ C.fields) {composite : Value}
    {parts : List (BindingId × Nat)} (hparts : ∀ q ∈ parts, q.1 ∈ l.ids)
    (hx : (c.planned before l rest).extract composite locals parts = .ok locals') :
    locals'.get? fd.name = locals.get? fd.name := by
  induction parts generalizing locals with
  | nil =>
    obtain rfl := Except.ok.inj hx
    rfl
  | cons q parts ih =>
    rw [Carrier.extract] at hx
    split at hx
    · rename_i v hv
      rw [ih (fun q' hq' => hparts q' (List.mem_cons_of_mem _ hq')) hx]
      exact h.addTo_kept hfd (hparts q (by simp)) v
    · cases hx

/-- If a guard hands on one variable only, it is one of its own. -/
theorem lone_own (h : c.Entered f names policy before l rest C)
    (hsome : ∃ b ∈ l.patterns.ids, c.ReadIn (l :: before) rest b)
    (hlone : (c.planned before l rest).fields = [fd]) : fd.binding ∈ l.patterns.ids := by
  obtain ⟨b, hb, hread⟩ := hsome
  have hid : b ∈ l.ids := List.mem_append_right _ hb
  have hcontains := (h.rules.planned_contains h.place).2 ⟨⟨l, by simp, hid⟩, hread⟩
  obtain ⟨fd', hfd', rfl⟩ := Carrier.contains_iff.1 hcontains
  obtain rfl : fd' = fd := by simpa [hlone] using hfd'
  exact hb

end Entered

/-- Whatever a clause adds, what comes in stays as it was. -/
theorem Makes.kept (hmakes : c.Makes names before l rest locals locals')
    (h : c.Entered f names policy before l rest C) (hfd : fd ∈ C.fields) :
    locals'.get? fd.name = locals.get? fd.name := by
  cases hmakes with
  | filter hk he => exact h.field_kept he hfd
  | @range w locals₁ hk he item =>
    have hid : (⟨l.ranges.start⟩ : BindingId) ∈ l.ids := by
      refine List.mem_append_left _ ?_
      rw [h.place.ranges_one h.rules.formed (Or.inr hk)]
      simp
    rw [h.addTo_kept hfd hid item, h.field_kept he hfd]
  | @parts composite locals₁ locals₂ hk he hx =>
    have hids : ∀ q ∈ l.ranges.ids.zipIdx.filter fun q => (c.planned before l rest).contains q.1, q.1 ∈ l.ids := by
      intro q hq
      exact List.mem_append_left _ (List.fst_mem_of_mem_zipIdx (List.mem_filter.1 hq).1)
    rw [h.extract_kept hfd hids hx, h.field_kept he hfd]

end Chain

/-! ### Stages that hand variables on -/

private theorem Shape.mem_fields {sh : Shape} {fd : Field} :
    fd ∈ sh.fields ↔ ∃ C, sh.carrier? = some C ∧ fd ∈ C.fields := by
  unfold Shape.fields
  cases sh.carrier? <;> simp

private theorem Shape.unpack?_value {sh : Shape} {C : Carrier} {v : Value} {locals : Store} (hC : sh.carrier? = some C)
    (hv : sh.unpack? v = some locals) {fd : Field} (hfd : fd ∈ C.fields) : ∃ u, locals.get? fd.name = some u :=
  Store.contains_iff.1 ((Shape.unpack?_holdsOnly hC hv fd.name).2 ⟨fd, hfd, rfl⟩)

/-- A value of a shape, whose variables have a property.  An outcome may be a mark of failure. -/
inductive Shape.Holds (P : Field → Value → Prop) (sh : Shape) (v : Value) : Prop
  | values {locals} (hv : sh.unpack? v = some locals)
    (hP : ∀ fd ∈ sh.fields, ∃ u, locals.get? fd.name = some u ∧ P fd u)
  | failure {C encoding} (hsh : sh = .outcome C encoding) (hv : encoding.read? v = some none)
  | result {ty} (hsh : sh = .projection ty)

/-- A guard with a value and captures hands on a mark of failure. -/
inductive Stage.Fails (p : Pool) (names : SymbolTable) (s : Stage NodeId) (v : Value) (captures : Store) :
    Value → Prop
  /-- Its condition does not hold. -/
  | condition {declared e C encoding locals locals' captures'} (hd : s.body.declared? p = some declared)
    (hb : s.body = .guard e) (hout : s.output = .outcome C encoding) (hl : s.input.unpack? v = some locals)
    (he : p.holdsWith ⟨names, declared⟩ e locals captures = .ok ((false, locals'), captures')) :
    Fails p names s v captures (encoding.write none)
  /-- Its condition holds, but of the variables one goes out only, which did not come in and is null, and the outcome
  has no tag. -/
  | loneNull {e C locals} (hb : s.body = .guard e) (hout : s.output = .outcome C .elided)
    (hp : s.Packs p names v captures C locals) (hnull : C.LoneNull locals)
    (hown : ∀ fd ∈ s.input.fields, ∀ fd' ∈ C.fields, fd.binding ≠ fd'.binding) : Fails p names s v captures .null

theorem Stage.Fails.read? {p : Pool} {names : SymbolTable} {s : Stage NodeId} {v w : Value} {captures : Store}
    (h : s.Fails p names v captures w) :
    ∃ C encoding, s.output = .outcome C encoding ∧ encoding.read? w = some none := by
  cases h with
  | condition hd hb hout => exact ⟨_, _, hout, Encoding.read?_write_none _⟩
  | loneNull hb hout => exact ⟨_, _, hout, rfl⟩

/-- A variable that comes in and goes out has one value.  A guard may also hand on a mark of failure. -/
def Stage.HandsOn (p : Pool) (names : SymbolTable) (s : Stage NodeId) (v : Value) (captures : Store) (w : Value) :
    Prop :=
  s.Fails p names v captures w ∨ (∃ ty, s.output = .projection ty) ∨
  ∃ locals locals', s.input.unpack? v = some locals ∧ s.output.unpack? w = some locals' ∧
    ∀ fd ∈ s.input.fields, ∀ fd' ∈ s.output.fields, fd.binding = fd'.binding →
      ∃ u, locals.get? fd.name = some u ∧ locals'.get? fd'.name = some u

namespace Chain

variable {c : Chain} {f : Flow} {names : SymbolTable} {policy : ScopePolicy} {p : Pool}
variable {before rest : List Link} {l : Link} {C D : Carrier} {s : Stage NodeId} {v w : Value} {captures : Store}

/-- What a stage of a clause hands on: the variables that come in, those that the clause makes of them, a mark of
failure, or a result. -/
inductive Hands (c : Chain) (p : Pool) (names : SymbolTable) (before : List Link) (l : Link) (rest : List Link)
    (C : Carrier) (s : Stage NodeId) (v : Value) (captures : Store) (w : Value) : Prop
  | same {locals} (hcarrier : s.output.carrier? = s.input.carrier?) (hv : s.input.unpack? v = some locals)
    (hw : s.output.unpack? w = some locals)
  | made {locals locals₁ locals'} (hin : s.input.carrier? = some C)
    (hout : s.output.carrier? = some (c.planned before l rest)) (hv : s.input.unpack? v = some locals)
    (hmakes : c.Makes names before l rest locals locals₁) (hw : s.output.unpack? w = some locals')
    (hget : ∀ fd ∈ (c.planned before l rest).fields, locals'.get? fd.name = locals₁.get? fd.name)
  | failure (hw : s.Fails p names v captures w)
  | result {ty} (hout : s.output = .projection ty)

/-- The variables that clauses introduce have a property as soon as they are made. -/
def Grants (c : Chain) (f : Flow) (names : SymbolTable) (policy : ScopePolicy) (P : Field → Value → Prop) : Prop :=
  ∀ before l rest C locals locals', c.Entered f names policy before l rest C → HoldsOnly C locals →
    c.Makes names before l rest locals locals' → ∀ fd ∈ (c.planned before l rest).fields, fd.binding ∈ l.ids →
      ∀ u, locals'.get? fd.name = some u → P fd u

namespace StageOf

/-- The carriers at a stage are the one that comes in and the one that is planned. -/
theorem carrier (h : c.StageOf before l rest C s) (hD : s.input.carrier? = some D ∨ s.output.carrier? = some D) :
    D = C ∨ D = c.planned before l rest := by
  cases h with
  | project hin =>
    rcases hD with hD | hD
    · exact Or.inl (Option.mem_unique hD hin)
    · cases hD
  | predicate hin => exact Or.inl (hD.elim (Option.mem_unique · hin) (Option.mem_unique · hin))
  | guard hin | generate hin | extend hin | destructure hin =>
    rcases hD with hD | hD
    · exact Or.inl (Option.mem_unique hD hin)
    · exact Or.inr (Option.some.inj hD).symm
  | rejectAbsent hout =>
    subst hout
    exact Or.inr (hD.elim (fun hD => (Option.some.inj hD).symm) fun hD => (Option.some.inj hD).symm)
  | unwrap hin =>
    subst hin
    exact Or.inr (hD.elim (fun hD => (Option.some.inj hD).symm) fun hD => (Option.some.inj hD).symm)

/-- Every carrier at a stage holds what is read from some place on. -/
theorem exists_carries (h : c.StageOf before l rest C s) (hent : c.Entered f names policy before l rest C)
    (hD : s.input.carrier? = some D ∨ s.output.carrier? = some D) :
    ∃ before' rest', c.links = before'.reverse ++ rest' ∧ c.Carries policy before' rest' D := by
  rcases h.carrier hD with rfl | rfl
  · exact ⟨before, l :: rest, hent.place, hent.carries⟩
  · exact ⟨l :: before, rest, hent.place.links_cons, hent.rules.carries_planned hent.place⟩

/-- What comes in with a guard that hands on one variable only does not go out. -/
theorem guard_apart (h : c.StageOf before l rest C s) (hent : c.Entered f names policy before l rest C) {e : NodeId}
    {encoding : Encoding} (hb : s.body = .guard e) (hout : s.output = .outcome D encoding) {fd : Field}
    (hlone : D.fields = [fd]) : ∀ fd₀ ∈ s.input.fields, ∀ fd' ∈ D.fields, fd₀.binding ≠ fd'.binding := by
  cases h with
  | guard hin hk hsome =>
    obtain ⟨rfl, -⟩ := Shape.outcome.inj hout
    have hown := hent.lone_own hsome hlone
    intro fd₀ hfd₀ fd' hfd'
    obtain rfl : fd' = fd := by simpa [hlone] using hfd'
    obtain ⟨C', hC', hfd₀⟩ := Shape.mem_fields.1 hfd₀
    obtain rfl := Option.mem_unique hin hC'
    exact hent.field_binding_ne hfd₀ (List.mem_append_right _ hown)
  | project | predicate | rejectAbsent | unwrap | generate | extend | destructure => simp [Link.selection] at hb

private theorem hands (h : c.StageOf before l rest C s) (hent : c.Entered f names policy before l rest C)
    (ht : p.term? l.expr = some l.term) {P : Field → Value → Prop} (hv : s.input.Holds P v)
    (hg : s.Gives p names v captures w) : c.Hands p names before l rest C s v captures w := by
  -- what is packed can be taken apart, since the planned names are distinct
  have hpacked {D : Carrier} {locals₁ : Store} {u : Value} (hp : s.Packs p names v captures D locals₁)
      (hu : D.pack names locals₁ = .ok u) (hout : s.output.carrier? = some D)
      (hw : ∀ locals', D.unpack? u = some locals' → s.output.unpack? w = some locals') :
      c.Hands p names before l rest C s v captures w := by
    obtain ⟨rfl, hin, locals, hl, hmakes⟩ := h.makes ht hp
    have hnodup := (hent.rules.carries_planned hent.place).names_nodup hent.rules hent.place.links_cons
    obtain ⟨locals', hun, hget⟩ := Carrier.unpack?_get? hnodup hu
    exact .made hin hout hl hmakes (hw locals' hun) hget
  cases hg with
  | same hout hpresent =>
    cases hv with
    | values hv => exact .same (by rw [hout]) hv (by rw [hout]; exact hv)
    | failure hsh hv => exact absurd hv (hpresent _ _ hsh)
    | result hsh => exact .result (hout.trans hsh)
  | payload hin hout hu =>
    cases hv with
    | values hv =>
      refine .same (by rw [hin, hout]; rfl) hv ?_
      rw [hin, Shape.unpack?_outcome hu] at hv
      rw [hout]
      exact hv
    | failure hsh hv =>
      obtain ⟨rfl, rfl⟩ := Shape.outcome.inj (hin.symm.trans hsh)
      rw [hu] at hv
      cases hv
    | result hsh =>
      rw [hin] at hsh
      cases hsh
  | packed hout hp hu =>
    refine hpacked hp hu (by rw [hout]; rfl) fun locals' hun => ?_
    rw [hout]
    exact hun
  | @success e D encoding locals₁ u hb hout hp hu =>
    by_cases hlost : encoding = .elided ∧ u = .null
    · -- the success cannot be told from a failure
      obtain ⟨rfl, rfl⟩ := hlost
      obtain ⟨fd, hlone, hnull⟩ := (Carrier.pack_eq_null_iff hu).1 rfl
      exact .failure (.loneNull hb hout hp ⟨fd, hlone, hnull⟩ (h.guard_apart hent hb hout hlone))
    · have hread := encoding.read?_write u
      rw [if_neg hlost] at hread
      refine hpacked hp hu (by rw [hout]; rfl) fun locals' hun => ?_
      rw [hout, Shape.unpack?_outcome hread, hun]
  | failure hd hb hout hl he => exact .failure (.condition hd hb hout hl he)
  | result hout => exact .result hout

end StageOf

namespace Hands

private theorem handsOn (h : c.Hands p names before l rest C s v captures w)
    (hent : c.Entered f names policy before l rest C) (hstage : c.StageOf before l rest C s) :
    s.HandsOn p names v captures w := by
  cases h with
  | failure hw => exact Or.inl hw
  | result hout => exact Or.inr (Or.inl ⟨_, hout⟩)
  | @same locals hcarrier hv hw =>
    refine Or.inr (Or.inr ⟨locals, locals, hv, hw, fun fd hfd fd' hfd' heq => ?_⟩)
    obtain ⟨D, hD, hfd⟩ := Shape.mem_fields.1 hfd
    obtain ⟨D', hD', hfd'⟩ := Shape.mem_fields.1 hfd'
    obtain ⟨before₁, rest₁, -, hcarries⟩ := hstage.exists_carries hent (Or.inl hD)
    rw [hcarrier] at hD'
    obtain rfl := Option.mem_unique hD hD'
    obtain rfl := hcarries.field_eq hcarries hfd hfd' heq
    obtain ⟨u, hu⟩ := Shape.unpack?_value hD hv hfd
    exact ⟨u, hu, hu⟩
  | @made locals locals₁ locals' hin hout hv hmakes hw hget =>
    refine Or.inr (Or.inr ⟨locals, locals', hv, hw, fun fd hfd fd' hfd' heq => ?_⟩)
    obtain ⟨D, hD, hfd⟩ := Shape.mem_fields.1 hfd
    obtain ⟨D', hD', hfd'⟩ := Shape.mem_fields.1 hfd'
    obtain rfl := Option.mem_unique hin hD
    obtain rfl := Option.mem_unique hout hD'
    obtain rfl := hent.carries.field_eq (hent.rules.carries_planned hent.place) hfd hfd' heq
    obtain ⟨u, hu⟩ := Shape.unpack?_value hin hv hfd
    refine ⟨u, hu, ?_⟩
    rw [hget fd hfd', hmakes.kept hent hfd, hu]

/-- A property of the variables that come in goes on, if the variables that the clause makes have it. -/
theorem holds (h : c.Hands p names before l rest C s v captures w) (hent : c.Entered f names policy before l rest C)
    {P : Field → Value → Prop} (hv : s.input.Holds P v) (hgrants : c.Grants f names policy P) :
    s.output.Holds P w := by
  have hcame {locals : Store} (hl : s.input.unpack? v = some locals) :
      ∀ fd ∈ s.input.fields, ∃ u, locals.get? fd.name = some u ∧ P fd u := by
    cases hv with
    | values hv hP =>
      obtain rfl := Option.some.inj (hv.symm.trans hl)
      exact hP
    | failure hsh hv =>
      rw [hsh, Shape.unpack?_outcome_none hv] at hl
      cases hl
    | result hsh =>
      rw [hsh] at hl
      cases hl
  cases h with
  | failure hw =>
    obtain ⟨D, encoding, hout, hread⟩ := hw.read?
    exact .failure hout hread
  | result hout => exact .result hout
  | same hcarrier hv hw =>
    refine .values hw fun fd hfd => hcame hv fd ?_
    rw [Shape.mem_fields, ← hcarrier, ← Shape.mem_fields]
    exact hfd
  | @made locals locals₁ locals' hin hout hv hmakes hw hget =>
    refine .values hw fun fd hfd => ?_
    obtain ⟨D, hD, hfd⟩ := Shape.mem_fields.1 hfd
    obtain rfl := Option.mem_unique hout hD
    obtain ⟨u, hu⟩ := Shape.unpack?_value hout hw hfd
    refine ⟨u, hu, ?_⟩
    rw [hget fd hfd] at hu
    rcases hent.rules.planned_fields hent.place hent.carries hfd with hfd' | hid
    · obtain ⟨u', hu', hP⟩ := hcame hv fd (Shape.mem_fields.2 ⟨C, hin, hfd'⟩)
      rw [hmakes.kept hent hfd', hu'] at hu
      obtain rfl := Option.some.inj hu
      exact hP
    · exact hgrants _ _ _ _ _ _ hent (Shape.unpack?_holdsOnly hin hv) hmakes fd hfd hid u hu

end Hands

end Chain

/-! ### Runs -/

/-- What stages hand on to the next ones reaches all the stages that a run visits. -/
theorem Run.Visits.keeps {p : Pool} {names : SymbolTable} {A : Stage NodeId → Value → Prop}
    {R : Stage NodeId → Stage NodeId → Prop} {index : Nat} {stages : List (Stage NodeId)} {v v' : Value}
    {captures captures' : Store} {s : Stage NodeId} (h : Run.Visits p names index stages v captures s v' captures')
    (hchain : stages.IsChain R) (hfirst : ∀ s ∈ stages.head?, A s v)
    (hstep : ∀ s ∈ stages, ∀ s', R s s' → ∀ index v captures ws captures', A s v →
      s.step p names index v captures = .ok (ws, captures') → ∀ w ∈ ws, A s' w) : A s v' := by
  induction h with
  | here => exact hfirst _ rfl
  | @later index s rest v captures done w more captures₁ out captures₂ s' v' captures' hs hd h ih =>
    refine ih hchain.tail (fun s₁ hs₁ => ?_) fun s₁ hs₁ => hstep s₁ (List.mem_cons_of_mem _ hs₁)
    cases rest with
    | nil => cases hs₁
    | cons s₂ rest =>
      obtain rfl := Option.some.inj hs₁
      have hnext : R s s₂ := (List.isChain_cons_cons.1 hchain).1
      exact hstep s (by simp) s₂ hnext index v captures _ _ (hfirst s rfl) hs w (by simp)

namespace Query.Accepted

variable {q : Query} {names : SymbolTable} {policy : ScopePolicy} {c : Chain} {f : Flow} {first : Link}
variable {rest : List Link} {p : Pipeline} {s : Stage NodeId} {v w : Value} {captures captures' captures'' : Store}

/-- Every stage belongs to a clause, with what comes in. -/
theorem entered (h : q.Accepted names policy c f first rest p) (hfit : c.PatternsFit) (hs : s ∈ p.stages) :
    ∃ before l rest C, c.Entered f names policy before l rest C ∧ c.StageOf before l rest C s := by
  obtain ⟨before, l, rest, C, hat, -, hC, hstage⟩ := h.stages.stageOf (by rw [h.links]; rfl) (by simp) hs
  exact ⟨before, l, rest, C, ⟨h.rules, hat, hC, hfit⟩, hstage⟩

/-- A property of the variables goes on through every stage. -/
theorem step_holds (h : q.Accepted names policy c f first rest p) (hfit : c.PatternsFit) {P : Field → Value → Prop}
    (hgrants : c.Grants f names policy P) (hs : s ∈ p.stages) (hv : s.input.Holds P v) {index : Nat} {ws : List Value}
    (hstep : s.step p.pool names index v captures = .ok (ws, captures')) (hw : w ∈ ws) : s.output.Holds P w := by
  obtain ⟨before, l, rest, C, hent, hstage⟩ := h.entered hfit hs
  have ht := h.term hent.place
  exact (hstage.hands hent ht hv (hstage.gives ht hstep hw)).holds hent hv hgrants

/-- So it holds wherever a run comes to. -/
theorem visits_holds (h : q.Accepted names policy c f first rest p) (hfit : c.PatternsFit)
    {P : Field → Value → Prop} (hsource : ∀ fd ∈ p.sourceCarrier.fields, ∀ u, P fd u)
    (hgrants : c.Grants f names policy P) (hv : p.Visits names captures s v captures') : s.input.Holds P v := by
  obtain ⟨done, w, more, captures₁, out, captures₂, -, -, hvisit⟩ := hv
  obtain ⟨hhead, hchain⟩ := h.stages.isChain
  refine hvisit.keeps (A := fun s v => s.input.Holds P v) hchain (fun s hs => ?_) ?_
  · have hin : s.input = .carrier p.sourceCarrier := by simpa [Option.mem_def.1 hs] using hhead
    rw [hin]
    have hfits : ∃ locals, (Shape.carrier p.sourceCarrier).unpack? w = some locals := by
      rw [h.carrier]
      cases hb : c.binding? ⟨first.ranges.start⟩ <;> simp [Shape.unpack?, Carrier.unpack?, Chain.carrierOf, hb]
    obtain ⟨locals, hl⟩ := hfits
    refine .values hl fun fd hfd => ?_
    obtain ⟨u, hu⟩ := Shape.unpack?_value rfl hl hfd
    exact ⟨u, hu, hsource fd hfd u⟩
  · intro s hs s' hnext index v captures ws captures' hv hstep w hw
    rw [hnext]
    exact h.step_holds hfit hgrants hs hv hstep hw

end Query.Accepted

/-- The names in a carrier are distinct, and no test of a stage binds a name that comes in. -/
structure Pipeline.NamesApart (p : Pipeline) : Prop where
  fields : ∀ C ∈ p.carriers, (C.fields.map Field.name).Nodup
  bound : ∀ s ∈ p.stages, ∀ e ∈ s.body.exprs, ∃ t, p.pool.term? e = some t ∧
    ∀ fd ∈ s.input.fields, fd.name ∉ t.boundNames

namespace Query

variable {q : Query} {names : SymbolTable} {policy : ScopePolicy} {c : Chain} {p : Pipeline}

/-- Among the variables at hand in a stage a name has one meaning, under either policy. -/
theorem names_apart (h : q.lower names policy = .ok p) (hc : q.chain = .ok c) (hfit : c.PatternsFit) :
    p.NamesApart := by
  obtain ⟨c', f, first, rest, hacc⟩ := lower_eq_ok h
  obtain rfl : c' = c := Except.ok.inj (hacc.chain.symm.trans hc)
  have hfirst : c'.At [] first rest := hacc.links
  refine ⟨fun C hC => ?_, fun s hs e he => ?_⟩
  · rcases List.mem_cons.1 hC with rfl | hC
    · rw [hacc.carrier]
      exact (hacc.rules.carries_source hfirst).names_nodup hacc.rules hfirst.links_cons
    · obtain ⟨s, hs, hC⟩ := List.mem_flatMap.1 hC
      obtain ⟨before, l, rest', C', hent, hstage⟩ := hacc.entered hfit hs
      have hC : s.input.carrier? = some C ∨ s.output.carrier? = some C := by simpa using hC
      obtain ⟨before', rest'', hlinks, hcarries⟩ := hstage.exists_carries hent hC
      exact hcarries.names_nodup hacc.rules hlinks
  · obtain ⟨before, l, rest', C, hent, hstage⟩ := hacc.entered hfit hs
    rcases hstage.exprs with ⟨-, hin, hexprs⟩ | ⟨-, hnone⟩
    · obtain rfl := hexprs e he
      refine ⟨l.term, hacc.term hent.place, fun fd hfd => ?_⟩
      obtain ⟨C', hC', hfd⟩ := Shape.mem_fields.1 hfd
      obtain rfl := Option.mem_unique hin hC'
      exact hent.field_not_bound hfd
    · rw [hnone] at he
      cases he

/-- Loops, and a filter whose variable is used next to that of the source: `from x in [1, 2] from y in [x, 5]
where y is int i && i > x select x + i`. -/
def crossed : Query where
  pool :=
    { nodes := #[⟨.literal (.int 1), ⟨0, 1⟩⟩, ⟨.literal (.int 2), ⟨2, 3⟩⟩, ⟨.row .list ⟨0, 2⟩, ⟨4, 5⟩⟩,
        ⟨.ident ⟨1⟩, ⟨6, 7⟩⟩, ⟨.literal (.int 5), ⟨8, 9⟩⟩, ⟨.row .list ⟨2, 2⟩, ⟨10, 11⟩⟩, ⟨.ident ⟨2⟩, ⟨12, 13⟩⟩,
        ⟨.test (.hasType .int) ⟨6⟩ ⟨3⟩, ⟨14, 15⟩⟩, ⟨.ident ⟨3⟩, ⟨16, 17⟩⟩, ⟨.ident ⟨1⟩, ⟨18, 19⟩⟩,
        ⟨.operator .gt ⟨8⟩ ⟨9⟩, ⟨20, 21⟩⟩, ⟨.connective .and ⟨7⟩ ⟨10⟩, ⟨22, 23⟩⟩, ⟨.ident ⟨1⟩, ⟨24, 25⟩⟩,
        ⟨.ident ⟨3⟩, ⟨26, 27⟩⟩, ⟨.operator .add ⟨12⟩ ⟨13⟩, ⟨28, 29⟩⟩]
      lists := #[⟨0⟩, ⟨1⟩, ⟨3⟩, ⟨4⟩] }
  clauses :=
    [⟨.source, ⟨2⟩, .one ⟨1⟩, .int, ⟨0, 1⟩⟩, ⟨.generator, ⟨5⟩, .one ⟨2⟩, .object, ⟨0, 1⟩⟩,
      ⟨.filter, ⟨11⟩, .none, .bool, ⟨0, 1⟩⟩, ⟨.select, ⟨14⟩, .none, .int, ⟨0, 1⟩⟩]

/-- The spellings of its names. -/
def crossedNames : SymbolTable := ⟨#["", "x", "y", "i"]⟩

theorem crossed_names_apart : ∃ p c, crossed.lower crossedNames .unique = .ok p ∧ crossed.chain = .ok c ∧
    c.PatternsFit ∧ p.carriers.map (fun C => C.fields.map Field.name) =
      [[⟨1⟩], [⟨1⟩], [⟨1⟩, ⟨2⟩], [⟨1⟩, ⟨2⟩], [⟨1⟩, ⟨3⟩], [⟨1⟩, ⟨3⟩], [⟨1⟩, ⟨3⟩], [⟨1⟩, ⟨3⟩]] ∧ p.NamesApart := by
  obtain ⟨p, hp⟩ : ∃ p, crossed.lower crossedNames .unique = .ok p := ⟨_, rfl⟩
  obtain ⟨c, hc⟩ : ∃ c, crossed.chain = .ok c := ⟨_, rfl⟩
  have hfields : (crossed.lower crossedNames .unique).toOption.map
      (fun p => p.carriers.map fun C => C.fields.map Field.name) =
        some [[⟨1⟩], [⟨1⟩], [⟨1⟩, ⟨2⟩], [⟨1⟩, ⟨2⟩], [⟨1⟩, ⟨3⟩], [⟨1⟩, ⟨3⟩], [⟨1⟩, ⟨3⟩], [⟨1⟩, ⟨3⟩]] := by cbv
  have hfit : crossed.chain.toOption.map (fun c => decide c.PatternsFit) = some true := by cbv
  rw [hp] at hfields
  rw [hc] at hfit
  have hfit : c.PatternsFit := of_decide_eq_true (Option.some.inj hfit)
  exact ⟨p, c, hp, hc, hfit, Option.some.inj hfields, names_apart hp hc hfit⟩

/-- At every stage that a run visits, the variables that come in keep their values: while the stage's expression is
evaluated, and in whatever the stage hands on. -/
theorem carried_immutable (h : q.lower names policy = .ok p) (hc : q.chain = .ok c) (hfit : c.PatternsFit)
    {captures captures' : Store} {s : Stage NodeId} {v : Value} (hv : p.Visits names captures s v captures') :
    (∀ g e m w m', s.Evaluates p.pool names v captures' g e m → p.pool.eval g e m = .ok (w, m') →
      ∀ fd ∈ s.input.fields, ∃ u, m.locals.get? fd.name = some u ∧ m'.locals.get? fd.name = some u) ∧
    ∀ index ws captures'', s.step p.pool names index v captures' = .ok (ws, captures'') →
      ∀ w ∈ ws, s.HandsOn p.pool names v captures' w := by
  obtain ⟨c', f, first, rest, hacc⟩ := lower_eq_ok h
  obtain rfl : c' = c := Except.ok.inj (hacc.chain.symm.trans hc)
  have hfits : s.input.Holds (fun _ _ => True) v :=
    hacc.visits_holds hfit (fun _ _ _ => trivial) (fun _ _ _ _ _ _ _ _ _ _ _ _ _ _ => trivial) hv
  obtain ⟨done, w₀, more, captures₁, out, captures₂, -, -, hvisit⟩ := hv
  obtain ⟨before, l, rest', C, hent, hstage⟩ := hacc.entered hfit hvisit.mem
  have ht := hacc.term hent.place
  constructor
  · intro g e m w m' hevaluates heval fd hfd
    obtain ⟨rfl, rfl, hin, honly⟩ := hstage.evaluates ht hevaluates
    obtain ⟨C', hC', hfd⟩ := Shape.mem_fields.1 hfd
    obtain rfl := Option.mem_unique hin hC'
    rw [Pool.eval_of_term ht] at heval
    obtain ⟨u, hu⟩ := Store.contains_iff.1 ((honly fd.name).2 ⟨fd, hfd, rfl⟩)
    have hkept := hent.field_kept ⟨m.captures, m'.captures, heval⟩ hfd
    exact ⟨u, hu, by rw [hkept, hu]⟩
  · intro index ws captures'' hstep w hw
    exact (hstage.hands hent ht hfits (hstage.gives ht hstep hw)).handsOn hent hstage

/-- The first element and what becomes of it in the loop: the variable of the source stays as it is while the inner
collection is evaluated, and is handed on with every item.  The condition of the filter does not hold for the first
item. -/
theorem crossed_carried_immutable : ∃ p s s', crossed.lower crossedNames .unique = .ok p ∧
    p.Visits crossedNames .empty s (.int 1) .empty ∧
    (∃ m w m', s.Evaluates p.pool crossedNames (.int 1) .empty ⟨crossedNames, []⟩ ⟨5⟩ m ∧
      p.pool.eval ⟨crossedNames, []⟩ ⟨5⟩ m = .ok (w, m') ∧
      ∃ u, m.locals.get? ⟨1⟩ = some u ∧ m'.locals.get? ⟨1⟩ = some u) ∧
    s.step p.pool crossedNames 0 (.int 1) .empty =
      .ok ([.tuple [.int 1, .int 1], .tuple [.int 1, .int 5]], .empty) ∧
    s.HandsOn p.pool crossedNames (.int 1) .empty (.tuple [.int 1, .int 5]) ∧
    p.Visits crossedNames .empty s' (.tuple [.int 1, .int 1]) .empty ∧
    s'.step p.pool crossedNames 1 (.tuple [.int 1, .int 1]) .empty = .ok ([.null], .empty) ∧
    s'.Fails p.pool crossedNames (.tuple [.int 1, .int 1]) .empty .null := by
  obtain ⟨p, hp⟩ : ∃ p, crossed.lower crossedNames .unique = .ok p := ⟨_, rfl⟩
  obtain ⟨c, hc⟩ : ∃ c, crossed.chain = .ok c := ⟨_, rfl⟩
  have hfit : crossed.chain.toOption.map (fun c => decide c.PatternsFit) = some true := by cbv
  have helements : (crossed.lower crossedNames .unique).toOption.map (fun p => p.elements crossedNames .empty) =
      some (.ok ([.int 1, .int 2], .empty)) := by cbv
  have hstages : (crossed.lower crossedNames .unique).toOption.map (fun p => (p.pool, p.stages.take 2)) =
      some (crossed.pool,
        [⟨.flatMap, .carrier ⟨0, [⟨⟨0⟩, ⟨1⟩, .int⟩]⟩, .carrier ⟨1, [⟨⟨0⟩, ⟨1⟩, .int⟩, ⟨⟨1⟩, ⟨2⟩, .object⟩]⟩,
          .generate ⟨5⟩ ⟨1⟩, 1⟩,
        ⟨.map, .carrier ⟨1, [⟨⟨0⟩, ⟨1⟩, .int⟩, ⟨⟨1⟩, ⟨2⟩, .object⟩]⟩,
          .outcome ⟨2, [⟨⟨0⟩, ⟨1⟩, .int⟩, ⟨⟨2⟩, ⟨3⟩, .int⟩]⟩ .elided, .guard ⟨11⟩, 2⟩]) := by cbv
  rw [hp] at helements hstages
  rw [hc] at hfit
  obtain ⟨hpool, htwo⟩ := Prod.mk.inj (Option.some.inj hstages)
  obtain ⟨s, s', more, hlist⟩ : ∃ s s' more, p.stages = s :: s' :: more := by
    generalize p.stages = stages at htwo
    rcases stages with _ | ⟨s, _ | ⟨s', more⟩⟩
    · cases htwo
    · cases htwo
    · exact ⟨s, s', more, rfl⟩
  rw [hlist] at htwo
  obtain ⟨hs, hs'⟩ := List.cons.inj htwo
  obtain ⟨hs', -⟩ := List.cons.inj hs'
  have hstep : s.step p.pool crossedNames 0 (.int 1) .empty =
      .ok ([.tuple [.int 1, .int 1], .tuple [.int 1, .int 5]], .empty) := by
    rw [hpool, hs]
    cbv
  have hstep' : s'.step p.pool crossedNames 1 (.tuple [.int 1, .int 1]) .empty = .ok ([.null], .empty) := by
    rw [hpool, hs']
    cbv
  have hvisits {s₁ : Stage NodeId} {w : Value}
      (h : Run.Visits p.pool crossedNames 0 p.stages (.int 1) .empty s₁ w .empty) :
      p.Visits crossedNames .empty s₁ w .empty :=
    ⟨[], .int 1, [.int 2], .empty, [], .empty, Option.some.inj helements, rfl, h⟩
  rw [hlist] at hvisits
  have hvisit : p.Visits crossedNames .empty s (.int 1) .empty := hvisits .here
  have hgiven : s.step p.pool crossedNames 0 (.int 1) .empty =
      .ok ([] ++ .tuple [.int 1, .int 1] :: [.tuple [.int 1, .int 5]], .empty) := hstep
  have hvisit' : p.Visits crossedNames .empty s' (.tuple [.int 1, .int 1]) .empty := hvisits (.later hgiven rfl .here)
  have hfit : c.PatternsFit := of_decide_eq_true (Option.some.inj hfit)
  obtain ⟨hevaluated, hhanded⟩ := carried_immutable hp hc hfit hvisit
  have hevaluates : s.Evaluates p.pool crossedNames (.int 1) .empty ⟨crossedNames, []⟩ ⟨5⟩
      ⟨.ofList [(⟨1⟩, .int 1)], .empty⟩ := by
    rw [hpool, hs]
    exact .first (by cbv) rfl rfl
  have heval : p.pool.eval ⟨crossedNames, []⟩ ⟨5⟩ ⟨.ofList [(⟨1⟩, .int 1)], .empty⟩ =
      .ok (.list [.int 1, .int 5], ⟨.ofList [(⟨1⟩, .int 1)], .empty⟩) := by
    rw [hpool]
    cbv
  refine ⟨p, s, s', hp, hvisit, ?_, hstep, hhanded 0 _ _ hstep _ (by simp), hvisit', hstep', ?_⟩
  · exact ⟨_, _, _, hevaluates, heval, hevaluated _ _ _ _ _ hevaluates heval ⟨⟨0⟩, ⟨1⟩, .int⟩ (by rw [hs]; decide)⟩
  · -- the guard gives out no result and no carrier, so it is a failure that it hands on
    rcases (carried_immutable hp hc hfit hvisit').2 1 _ _ hstep' .null (by simp) with h | ⟨ty, h⟩ | ⟨_, _, -, h, -⟩
    · exact h
    · rw [hs'] at h
      cases h
    · rw [hs'] at h
      cases h

end Query

end QueryPipeline
