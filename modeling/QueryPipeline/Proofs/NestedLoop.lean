import QueryPipeline.Proofs.Carried

/-!
# Evaluation by nested loops

What a query means without carriers: `Chain.loop` walks the clauses with an environment that keeps every variable
under its binding.  A name in a clause denotes what it is resolved to: a variable of the clause itself or of an
earlier clause is looked up in the environment, and any other name is one of the code around the query.

An expression is evaluated alike in a stage, where variables are kept by name, and in an environment that mirrors the
stage's variables (`Chain.Placed.evalWith_matches`).
-/

namespace QueryPipeline

open QueryPipeline.Computation (InStep Agree)

/-! ### Environments -/

/-- The values of variables, by their bindings. -/
abbrev Env := BindingId → Option Value

namespace Env

/-- No variable has a value. -/
def empty : Env := fun _ => none

/-- Gives a variable a value, in place of the one it had. -/
def set (env : Env) (b : BindingId) (v : Value) : Env := fun a => if a = b then some v else env a

/-- Stores the parts of a composite.  A part that is not there is a fault only if it is needed. -/
def setParts (env : Env) (composite : Value) (isNeeded : BindingId → Bool) :
    List (BindingId × Nat) → Except Fault Env
  | [] => .ok env
  | (b, position) :: rest =>
    match composite.part position with
    | .ok v => (env.set b v).setParts composite isNeeded rest
    | .error f => if isNeeded b then .error f else env.setParts composite isNeeded rest

end Env

/-- What an expression reads and changes: the variables of the clauses, and those of the code around the query. -/
structure Scene where
  env : Env
  captures : Store

/-- The value of a name that is resolved. -/
def Scene.find? (s : Scene) (x : Symbol) : Resolution → Option Value
  | .sameClause b | .earlier b => s.env b
  | .outer => s.captures.get? x

namespace Chain

/-- How the expression of a clause reaches its variables, given the clauses before, latest first. -/
def access (c : Chain) (names : SymbolTable) (before : List Link) (l : Link) : Access Scene where
  read x := do
    Computation.ofOption (.unbound (names.spelling x)) ((← get).find? x (c.resolve x l before))
  assign x v := do
    let s ← get
    match c.resolve x l before with
    | .sameClause b | .earlier b =>
      if (s.env b).isSome then set { s with env := s.env.set b v }
      else Computation.fail (.unbound (names.spelling x))
    | .outer => set { s with captures := s.captures.insert x v }
  bind x v :=
    match c.resolve x l before with
    | .sameClause b => modify fun s => { s with env := s.env.set b v }
    | _ => return ()

/-- Evaluates the expression of a clause, and returns the environment after it as well. -/
def evaluate (c : Chain) (names : SymbolTable) (before : List Link) (l : Link) (env : Env) : Run (Value × Env) :=
  fun captures => do
    let (v, s) ← l.term.evalVia names (c.access names before l) ⟨env, captures⟩
    return ((v, s.env), s.captures)

/-- The environment after a clause.  Of the clause's pattern variables only those last that a filter assigns whenever
it holds. -/
def leave (c : Chain) (l : Link) (env : Env) : Env :=
  fun b => if l.patterns.ids.contains b && !(c.binding? b).any c.outlives then none else env b

/-- Whether one of the clauses `rest` uses the variable. -/
def isUsed (c : Chain) (before rest : List Link) (b : BindingId) : Bool := (used (c.readsFrom before rest)).contains b

/-! ### Loops -/

/-- When a filter turns down what satisfies its condition, given the clauses before, the clause, the clauses after and
the environment. -/
abbrev Veto := List Link → Link → List Link → Env → Bool

/-- What the clauses `rest` make of an environment, by nested loops: a source and a generator go through their lists,
a filter goes on only if its condition holds, a definition stores its value, and the selection gives a result. -/
def loop (c : Chain) (names : SymbolTable) (veto : Veto) : (before rest : List Link) → Env → Run (List Value)
  | _, [], _ => return []
  | before, l :: rest, env => do
    let (v, env) ← c.evaluate names before l env
    match l.kind with
    | .source | .generator =>
      let items ← Computation.ofExcept v.elements
      Run.forEach (fun item => c.loop names veto (l :: before) rest ((c.leave l env).set ⟨l.ranges.start⟩ item)) items
    | .filter =>
      let holds ← Computation.ofExcept v.asBool
      if holds && !veto before l rest env then c.loop names veto (l :: before) rest (c.leave l env)
      else return []
    | .define => c.loop names veto (l :: before) rest ((c.leave l env).set ⟨l.ranges.start⟩ v)
    | .unpack =>
      let env ← Computation.ofExcept
        ((c.leave l env).setParts v (c.isUsed (l :: before) rest) l.ranges.ids.zipIdx)
      c.loop names veto (l :: before) rest env
    | .select => return [v]

/-- The results of a chain by nested loops, and the captures after it. -/
def nestedLoop (c : Chain) (names : SymbolTable) (veto : Veto) (captures : Store) :
    Except (Failure Fault) (List Value × Store) :=
  (c.loop names veto [] c.links .empty).run captures

/-- The variables of a clause and of those before it that later clauses use. -/
def handedOn (c : Chain) (before : List Link) (l : Link) (rest : List Link) : List BindingId :=
  (used (c.readsFrom (l :: before) rest)).filter fun b => (l :: before).any fun l' => l'.ids.contains b

/-- A filter that hands on a single variable, one of its own whose type has no null, turns down a null in it. -/
def vetoesNull (c : Chain) : Veto := fun before l rest env =>
  match c.handedOn before l rest with
  | [b] => l.patterns.ids.contains b && (c.binding? b).any (fun bd => !bd.ty.allowsNull) && env b == some .null
  | _ => false

/-- A filter goes on whenever its condition holds. -/
def vetoesNothing : Veto := fun _ _ _ _ => false

end Chain

/-! ### Runs that match -/

namespace Run

variable {α β γ : Type}

/-- The same failure, or related results with the same captures. -/
inductive Alike (Q : α → β → Prop) :
    Except (Failure Fault) (α × Store) → Except (Failure Fault) (β × Store) → Prop
  | ok {a : α} {b : β} {captures : Store} (h : Q a b) : Alike Q (.ok (a, captures)) (.ok (b, captures))
  | error (e : Failure Fault) : Alike Q (.error e) (.error e)

/-- From the same captures the two computations end alike. -/
def Matches (Q : α → β → Prop) (x : Run α) (y : Run β) : Prop := ∀ captures, Alike Q (x captures) (y captures)

theorem Matches.bind_eq {Q : α → β → Prop} {x : Run α} {y : Run β} {f : α → Run γ} {g : β → Run γ}
    (h : Matches Q x y) (hfg : ∀ a b, Q a b → f a = g b) : x >>= f = y >>= g := by
  funext captures
  rw [Computation.bind_apply, Computation.bind_apply]
  have hxy := h captures
  generalize x captures = r at hxy
  generalize y captures = r' at hxy
  cases hxy with
  | ok hab => exact congrFun (hfg _ _ hab) _
  | error e => rfl

theorem bind_ofExcept_congr {x : Except Fault α} {f g : α → Run β} (h : ∀ a, x = .ok a → f a = g a) :
    (Computation.ofExcept x : Run α) >>= f = Computation.ofExcept x >>= g := by
  cases x with
  | ok a => exact h a rfl
  | error e => rfl

theorem forEach_singleton (f : Value → Run (List Value)) (v : Value) : forEach f [v] = f v := by
  simp [forEach]

end Run

/-! ### Ways to variables -/

/-- All that the clause reads or assigns has a name. -/
def Link.NamesPresent (l : Link) : Prop := ∀ t ∈ l.term.preorder, ∀ m ∈ t.mention?, m.1.isPresent = true

instance (l : Link) : Decidable l.NamesPresent :=
  inferInstanceAs (Decidable (∀ t ∈ l.term.preorder, ∀ m ∈ t.mention?, m.1.isPresent = true))

/-- The clause assigns a name that one of its tests binds. -/
def Link.AssignsOwn (l : Link) : Prop :=
  ∃ t ∈ l.term.preorder, ∃ x ∈ l.term.boundNames, t.mention? = some (x, true)

instance (l : Link) : Decidable l.AssignsOwn :=
  inferInstanceAs (Decidable (∃ t ∈ l.term.preorder, ∃ x ∈ l.term.boundNames, t.mention? = some (x, true)))

namespace Chain

variable {c : Chain} {f : Flow} {names : SymbolTable} {policy : ScopePolicy}
variable {before rest : List Link} {l : Link} {C : Carrier} {locals : Store} {env : Env}

section Access

variable {x : Symbol} {b : BindingId}

private theorem access_assign_own (hr : c.resolve x l before = .sameClause b) (v : Value) (s : Scene) :
    (c.access names before l).assign x v s =
      if (s.env b).isSome then .ok ((), { s with env := s.env.set b v })
      else .error (.error (.unbound (names.spelling x))) := by
  show (match c.resolve x l before with
    | .sameClause b | .earlier b =>
      if (s.env b).isSome then set { s with env := s.env.set b v }
      else Computation.fail (.unbound (names.spelling x))
    | .outer => set { s with captures := s.captures.insert x v } : Computation Scene Unit) s = _
  rw [hr]
  dsimp only
  cases (s.env b).isSome <;> rfl

private theorem access_assign_outer (hr : c.resolve x l before = .outer) (v : Value) (s : Scene) :
    (c.access names before l).assign x v s = .ok ((), { s with captures := s.captures.insert x v }) := by
  show (match c.resolve x l before with
    | .sameClause b | .earlier b =>
      if (s.env b).isSome then set { s with env := s.env.set b v }
      else Computation.fail (.unbound (names.spelling x))
    | .outer => set { s with captures := s.captures.insert x v } : Computation Scene Unit) s = _
  rw [hr]
  rfl

private theorem access_bind_own (hr : c.resolve x l before = .sameClause b) (v : Value) (s : Scene) :
    (c.access names before l).bind x v s = .ok ((), { s with env := s.env.set b v }) := by
  show (match c.resolve x l before with
    | .sameClause b => modify fun s => { s with env := s.env.set b v }
    | _ => return () : Computation Scene Unit) s = _
  rw [hr]
  rfl

private theorem access_bind_other (hr : ∀ b, c.resolve x l before ≠ .sameClause b) (v : Value) (s : Scene) :
    (c.access names before l).bind x v s = .ok ((), s) := by
  show (match c.resolve x l before with
    | .sameClause b => modify fun s => { s with env := s.env.set b v }
    | _ => return () : Computation Scene Unit) s = _
  cases h : c.resolve x l before with
  | sameClause b => exact absurd h (hr b)
  | earlier | outer => rfl

end Access

theorem Lasts.outlives {bd : Binding} (h : c.Lasts policy bd) : c.outlives bd = true := by
  rcases h with h | ⟨-, h⟩
  · unfold Chain.outlives
    rw [h]
  · exact h

/-! ### Variables of a stage in an environment -/

/-- A clause with the carrier that comes in, where all that the clause reads or assigns has a name. -/
structure Placed (c : Chain) (f : Flow) (names : SymbolTable) (policy : ScopePolicy) (before : List Link) (l : Link)
    (rest : List Link) (C : Carrier) : Prop extends c.Entered f names policy before l rest C where
  named : l.NamesPresent

/-- While the expression of a clause is evaluated, the environment has the same values as the variables at hand: those
that came in, and those that the clause's tests have bound so far. -/
structure Mirrors (c : Chain) (before : List Link) (l : Link) (C : Carrier) (locals : Store) (env : Env) : Prop where
  carried : ∀ fd ∈ C.fields, ∃ v, locals.get? fd.name = some v ∧ env fd.binding = some v
  own : ∀ b ∈ l.patterns.ids, ∀ bd, c.binding? b = some bd → locals.get? bd.name = env b
  others : ∀ x, x.isPresent = true → (∀ fd ∈ C.fields, fd.name ≠ x) → x ∉ l.term.boundNames → locals.get? x = none
  known : ∀ b, env b ≠ none → Introduces (l :: before) b

namespace Placed

variable {x : Symbol} {b : BindingId} {bd : Binding} {fd : Field} {v : Value}

private theorem mirrors_set (h : c.Placed f names policy before l rest C) (hm : c.Mirrors before l C locals env)
    (hb : b ∈ l.patterns.ids) (hbd : c.binding? b = some bd) (v : Value) :
    c.Mirrors before l C (locals.insert bd.name v) (env.set b v) where
  carried fd hfd := by
    have hid : b ∈ l.ids := List.mem_append_right _ hb
    obtain ⟨w, hlocal, henv⟩ := hm.carried fd hfd
    refine ⟨w, ?_, ?_⟩
    · rw [Store.get?_insert, if_neg (h.field_ne hfd hid hbd).symm, hlocal]
    · rw [Env.set, if_neg (h.field_binding_ne hfd hid), henv]
  own b' hb' bd' hbd' := by
    rw [Store.get?_insert, Env.set]
    by_cases heq : b' = b
    · subst heq
      obtain rfl := Option.mem_unique hbd hbd'
      rw [if_pos rfl, if_pos rfl]
    · have hne : bd.name ≠ bd'.name := fun hname =>
        heq (h.rules.distinct h.place (List.mem_append_right _ hb') hbd' (List.mem_append_right _ hb) hbd hname.symm)
      rw [if_neg hne, if_neg heq]
      exact hm.own b' hb' bd' hbd'
  others x hx hfields hbound := by
    have hne : bd.name ≠ x := fun hname => hbound (hname ▸ h.place.own_bound h.rules.formed hb hbd)
    rw [Store.get?_insert, if_neg hne]
    exact hm.others x hx hfields hbound
  known b' hb' := by
    by_cases heq : b' = b
    · subst heq
      exact ⟨l, by simp, List.mem_append_right _ hb⟩
    · rw [Env.set, if_neg heq] at hb'
      exact hm.known b' hb'

/-- A test without a name may leave a value under the blank name, which nothing reads. -/
theorem mirrors_blank (h : c.Placed f names policy before l rest C) (hm : c.Mirrors before l C locals env)
    (hx : x.isPresent = false) (v : Value) : c.Mirrors before l C (locals.insert x v) env where
  carried fd hfd := by
    have hne : x ≠ fd.name := fun heq => by rw [heq, h.field_present hfd] at hx; cases hx
    rw [Store.get?_insert, if_neg hne]
    exact hm.carried fd hfd
  own b hb bd hbd := by
    have hpresent := (Term.mem_boundNames.1 (h.place.own_bound h.rules.formed hb hbd)).1
    have hne : x ≠ bd.name := fun heq => by rw [heq, hpresent] at hx; cases hx
    rw [Store.get?_insert, if_neg hne]
    exact hm.own b hb bd hbd
  others y hy hfields hbound := by
    have hne : x ≠ y := fun heq => by rw [heq, hy] at hx; cases hx
    rw [Store.get?_insert, if_neg hne]
    exact hm.others y hy hfields hbound
  known := hm.known

private theorem outer_free (h : c.Placed f names policy before l rest C) (hr : c.resolve x l before = .outer) :
    (∀ fd ∈ C.fields, fd.name ≠ x) ∧ x ∉ l.term.boundNames := by
  refine ⟨fun fd hfd => h.outer_ne hr hfd, fun hx => ?_⟩
  obtain ⟨b, hb, -⟩ := h.exists_own hx
  rw [hr] at hb
  cases hb

theorem find?_eq (h : c.Placed f names policy before l rest C) {m : Memory} {s : Scene} (hs : m.captures = s.captures)
    (hm : c.Mirrors before l C m.locals s.env) {t : Term} {a : Bool} (ht : t ∈ l.term.preorder)
    (hmention : t.mention? = some (x, a)) : m.find? (l.setting names) x = s.find? x (c.resolve x l before) := by
  unfold Memory.find?
  cases hr : c.resolve x l before with
  | sameClause b =>
    obtain ⟨hb, bd, hbd, rfl⟩ := resolve_eq_sameClause hr
    -- the captures are out of reach, also while the name has no value
    have hdeclared := h.place.own_declared h.rules.formed names hr
    rw [if_pos hdeclared, Option.or_none]
    exact hm.own b hb bd hbd
  | earlier b =>
    obtain ⟨fd, hfd, rfl, rfl⟩ := h.rules.exists_field h.place h.carries ht hmention hr
    obtain ⟨v, hlocal, henv⟩ := hm.carried fd hfd
    rw [hlocal, Option.some_or]
    exact henv.symm
  | outer =>
    -- no variable at hand has the name
    obtain ⟨hfields, hbound⟩ := h.outer_free hr
    have hdeclared : ¬ (l.setting names).declared.contains x = true := fun hx => hbound (List.contains_iff_mem.1 hx)
    rw [hm.others x (h.named t ht _ hmention) hfields hbound, Option.none_or, if_neg hdeclared, hs]
    rfl

private theorem assign_inStep (h : c.Placed f names policy before l rest C) {t : Term} (ht : t ∈ l.term.preorder)
    (hmention : t.mention? = some (x, true)) (v : Value) :
    InStep (fun m s => m.captures = s.captures ∧ c.Mirrors before l C m.locals s.env)
      (Eval.store (l.setting names) x v) ((c.access names before l).assign x v) := by
  rintro m s ⟨hs, hm⟩
  rw [Eval.store_apply]
  cases hr : c.resolve x l before with
  | sameClause b =>
    obtain ⟨hb, bd, hbd, rfl⟩ := resolve_eq_sameClause hr
    have hdeclared := h.place.own_declared h.rules.formed names hr
    have hsame : m.locals.contains bd.name = (s.env b).isSome := by rw [Store.contains, hm.own b hb bd hbd]
    rw [access_assign_own hr, hsame, hdeclared]
    cases (s.env b).isSome with
    | true => exact .ok ⟨hs, h.mirrors_set hm hb hbd v⟩
    | false => exact .error _
  | earlier b => cases (h.rules.earlier h.place ht hmention hr).1
  | outer =>
    obtain ⟨hfields, hbound⟩ := h.outer_free hr
    have hlocal := hm.others x (h.named t ht _ hmention) hfields hbound
    have hdeclared : (l.setting names).declared.contains x = false :=
      Bool.eq_false_iff.2 fun hx => hbound (List.contains_iff_mem.1 hx)
    rw [access_assign_outer hr, Store.contains_eq_false.2 hlocal, hdeclared, hs]
    exact .ok ⟨rfl, hm⟩

private theorem bind_inStep (h : c.Placed f names policy before l rest C) {o : Origin} {q : Test} {e : Term}
    (ht : Term.test o q e x ∈ l.term.preorder) (v : Value) :
    InStep (fun m s => m.captures = s.captures ∧ c.Mirrors before l C m.locals s.env)
      (Eval.setLocal x v) ((c.access names before l).bind x v) := by
  rintro m s ⟨hs, hm⟩
  cases hx : x.isPresent with
  | true =>
    -- by `PatternsFit` the table has a binding for every name that a test binds
    obtain ⟨b, hr, hb, bd, hbd, rfl⟩ := h.exists_own (Term.mem_boundNames.2 ⟨hx, o, q, e, ht⟩)
    rw [access_bind_own hr]
    exact .ok ⟨hs, h.mirrors_set hm hb hbd v⟩
  | false =>
    have hother : ∀ b, c.resolve x l before ≠ .sameClause b := by
      intro b hr
      obtain ⟨hb, bd, hbd, rfl⟩ := resolve_eq_sameClause hr
      rw [(Term.mem_boundNames.1 (h.place.own_bound h.rules.formed hb hbd)).1] at hx
      cases hx
    rw [access_bind_other hother]
    exact .ok ⟨hs, h.mirrors_blank hm hx v⟩

private theorem access_inStepOn (h : c.Placed f names policy before l rest C) :
    (l.setting names).access.InStepOn (fun m s => m.captures = s.captures ∧ c.Mirrors before l C m.locals s.env)
      (c.access names before l) l.term where
  read t ht x hmention := by
    rintro m s ⟨hs, hm⟩
    show Agree _ ((Computation.ofOption ((l.setting names).unbound x) (m.find? (l.setting names) x) : Eval Value) m)
      ((Computation.ofOption (.unbound (names.spelling x)) (s.find? x (c.resolve x l before)) :
        Computation Scene Value) s)
    rw [h.find?_eq hs hm ht hmention]
    exact InStep.ofOption _ _ m s ⟨hs, hm⟩
  assign t ht x hmention v := h.assign_inStep ht hmention v
  bind o q e x ht v _ := h.bind_inStep ht v

/-- The expression of a clause gives the same in its stage and in an environment that mirrors the variables at hand,
and then the environment mirrors the variables after it. -/
theorem evalWith_matches (h : c.Placed f names policy before l rest C) (hm : c.Mirrors before l C locals env) :
    Run.Matches (fun r r' => r.1 = r'.1 ∧ c.Mirrors before l C r.2 r'.2 ∧
        l.term.Evaluated (l.setting names) locals r.1 r.2)
      (c.pool.evalWith (l.setting names) l.expr locals) (c.evaluate names before l env) := by
  intro captures
  have hagree := Term.evalVia_inStep names l.term h.access_inStepOn ⟨locals, captures⟩ ⟨env, captures⟩ ⟨rfl, hm⟩
  unfold Pool.evalWith evaluate
  rw [Pool.eval_of_term h.term]
  cases heval : l.term.eval (l.setting names) ⟨locals, captures⟩ with
  | error e =>
    have heval' : l.term.evalVia names (l.setting names).access ⟨locals, captures⟩ = .error e := heval
    rw [heval'] at hagree
    cases hspec : l.term.evalVia names (c.access names before l) ⟨env, captures⟩ with
    | error e' =>
      rw [hspec] at hagree
      cases hagree
      exact .error e
    | ok r =>
      rw [hspec] at hagree
      cases hagree
  | ok r =>
    obtain ⟨v, m⟩ := r
    have heval' : l.term.evalVia names (l.setting names).access ⟨locals, captures⟩ = .ok (v, m) := heval
    rw [heval'] at hagree
    cases hspec : l.term.evalVia names (c.access names before l) ⟨env, captures⟩ with
    | error e =>
      rw [hspec] at hagree
      cases hagree
    | ok r' =>
      rw [hspec] at hagree
      obtain ⟨v', s⟩ := r'
      cases hagree with
      | ok hms =>
        obtain ⟨hs, hm'⟩ := hms
        show Run.Alike _ (.ok ((v, m.locals), m.captures)) (.ok ((v, s.env), s.captures))
        rw [hs]
        exact .ok ⟨rfl, hm', captures, m.captures, heval⟩

end Placed

end Chain

end QueryPipeline
