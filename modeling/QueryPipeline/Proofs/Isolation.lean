import Mathlib
import QueryPipeline.Proofs.BoundVariables

/-!
# Pattern variables and captures

A clause may bind, by a test, a name that the code around the query has as well.  Where a run comes to such a name in
a clause after the source, it leaves the captures alone, also if the test has not bound the name.  The source is
evaluated before there is a stage, and there only a name that has a value already is kept apart from the captures
(`Query.sameClause_isolation`).
-/

namespace QueryPipeline

open QueryPipeline.Computation (Meets)

/-! ### Uses that leave the captures alone -/

/-- Reading the variable gives the same whatever the captures are, and assigning it does not change them. -/
def Memory.SparesCaptures (m : Memory) (g : Setting) (x : Symbol) : Prop :=
  (∀ captures, { m with captures := captures }.find? g x = m.find? g x) ∧
    ∀ v m', Eval.store g x v m = .ok ((), m') → m'.captures = m.captures

private theorem Memory.sparesCaptures_iff {m : Memory} {g : Setting} {x : Symbol} :
    m.SparesCaptures g x ↔ m.locals.contains x = true ∨ g.declared.contains x = true := by
  constructor
  · intro h
    refine Classical.byContradiction fun hfree => ?_
    simp only [not_or, Bool.not_eq_true] at hfree
    obtain ⟨hlocal, hdeclared⟩ := hfree
    have hnone := Store.contains_eq_false.1 hlocal
    -- with and without a capture of that name, reading gives different answers
    have hwith : { m with captures := Store.empty.insert x .null }.find? g x = some .null := by
      simp only [find?, hnone, hdeclared, Option.none_or, Bool.false_eq_true, if_false, Store.get?_insert, if_true]
    have hwithout : { m with captures := Store.empty }.find? g x = none := by
      simp only [find?, hnone, hdeclared, Option.none_or, Bool.false_eq_true, if_false]
      rfl
    rw [h.1 (Store.empty.insert x .null), ← h.1 .empty, hwithout] at hwith
    cases hwith
  · intro h
    refine ⟨fun captures => ?_, fun v m' hs => ?_⟩
    · rcases h with h | h
      · obtain ⟨v, hv⟩ := Store.contains_iff.1 h
        simp only [find?, hv, Option.some_or]
      · simp only [find?, h, if_true]
    · rcases Eval.store_eq_ok.1 hs with ⟨-, rfl⟩ | ⟨hlocal, hdeclared, -⟩
      · rfl
      · rw [hlocal, hdeclared] at h
        simp at h

/-! ### Captures that change -/

/-- Every capture that differs from the given ones is assigned by some clause as one of the code around the query. -/
def Flow.ChangesOuter (f : Flow) (captures captures' : Store) : Prop :=
  ∀ y, captures'.get? y ≠ captures.get? y → ∃ k, f.Resolves k y true .outer

namespace Query.Accepted

variable {q : Query} {names : SymbolTable} {policy : ScopePolicy} {c : Chain} {f : Flow} {first : Link}
variable {rest : List Link} {p : Pipeline} {captures : Store}

/-- An expression of a clause keeps captures that differ only in assigned variables of the code around the query, if
that holds of the assignments it comes to where the captures are in reach. -/
private theorem changes_meets (h : q.Accepted names policy c f first rest p) {before rest' : List Link} {l : Link}
    (hat : c.At before l rest') {g : Setting} {locals : Store} {P : Store → Prop}
    (hP : ∀ captures', P captures' → f.ChangesOuter captures captures')
    (hassign : ∀ captures' u m y, P captures' → l.term.Touches g ⟨locals, captures'⟩ u m →
      u.mention? = some (y, true) → m.locals.get? y = none → g.declared.contains y = false →
      c.resolve y l before = .outer) :
    Meets P (c.pool.evalWith g l.expr locals) (fun _ captures' => f.ChangesOuter captures captures')
      (fun _ => True) := by
  have ht : c.pool.term? l.expr = some l.term := by rw [← h.pool]; exact h.term hat
  intro captures₁ h₁
  refine ⟨fun r captures₂ hr y hy => ?_, fun _ _ => trivial⟩
  by_cases hsame : captures₂.get? y = captures₁.get? y
  · exact hP captures₁ h₁ y (by rw [← hsame]; exact hy)
  · obtain ⟨u, m, htouch, hm, hlocal, hdeclared⟩ := Term.eval_captures ((Pool.evalWith_eq_ok ht).1 hr) hsame
    have hres := hassign captures₁ u m y h₁ htouch hm hlocal hdeclared
    exact ⟨before.length, (h.rules.resolves_iff hat).2 ⟨⟨u, htouch.mem_preorder, hm⟩, hres⟩⟩

/-- An assignment that reaches the captures in a clause after the source is one to the code around the query. -/
private theorem outer_of_assign (h : q.Accepted names policy c f first rest p) {before rest' : List Link} {l : Link}
    (hat : c.At before l rest') {u : Term} {y : Symbol} (hu : u ∈ l.term.preorder)
    (hm : u.mention? = some (y, true)) (hown : ∀ b, c.resolve y l before ≠ .sameClause b) :
    c.resolve y l before = .outer := by
  cases hr : c.resolve y l before with
  | outer => rfl
  | sameClause b => exact absurd hr (hown b)
  | earlier b => cases (h.rules.earlier hat hu hm hr).1

private theorem changesOuter (h : q.Accepted names policy c f first rest p)
    (hsource : ∀ g u m x b, p.Touches names captures 0 g u m → u.mention? = some (x, true) →
      f.Resolves 0 x true (.sameClause b) → m.locals.contains x = true)
    {out : List Value} {captures' : Store} (hrun : p.runWith names captures = .ok (out, captures')) :
    f.ChangesOuter captures captures' := by
  have hfirst : c.At [] first rest := h.links
  refine (h.meets (E := fun _ => True) (h.changes_meets hfirst ?_ ?_) (fun before l rest' C locals hat _ hC hlocals =>
    h.changes_meets hat (fun _ h => h) ?_) fun _ _ => trivial).1 out captures' hrun
  · rintro captures' rfl y hy
    exact absurd rfl hy
  · rintro captures' u m y rfl htouch hm hlocal -
    refine h.outer_of_assign hfirst htouch.mem_preorder hm fun b hr => ?_
    have hres := (h.rules.resolves_iff hfirst).2 ⟨⟨u, htouch.mem_preorder, hm⟩, hr⟩
    have heval : p.Touches names captures' 0 ⟨names, []⟩ u m :=
      ⟨p.source, first.term, _, .source, by rw [h.source]; exact h.term hfirst, htouch⟩
    have hheld := hsource _ u m y b heval hm hres
    rw [Store.contains_eq_false.2 hlocal] at hheld
    cases hheld
  · intro captures' u m y _ htouch hm _ hdeclared
    refine h.outer_of_assign hat htouch.mem_preorder hm fun b hr => ?_
    rw [hat.own_declared h.rules.formed names hr] at hdeclared
    cases hdeclared

/-- Where a run comes to a name of the clause's own. -/
theorem sparesCaptures_iff (h : q.Accepted names policy c f first rest p) {k : Nat} {g : Setting} {u : Term}
    {m : Memory} {x : Symbol} {a : Bool} {b : BindingId} (htouch : p.Touches names captures k g u m)
    (hr : f.Resolves k x a (.sameClause b)) :
    m.SparesCaptures g x ↔ (k = 0 → m.locals.contains x = true) := by
  rw [Memory.sparesCaptures_iff]
  obtain ⟨e, t, m₀, heval, -, -⟩ := htouch
  rcases h.evaluates heval with ⟨rfl, rfl, -, -⟩ | ⟨before, l, rest', C, hat, hne, rfl, -, rfl, -, -⟩
  · simp
  · have hdeclared := hat.own_declared h.rules.formed names ((h.rules.resolves_iff hat).1 hr).2
    have hlength : before.length ≠ 0 := by simpa using hne
    exact ⟨fun _ h0 => absurd h0 hlength, fun _ => Or.inr hdeclared⟩

end Query.Accepted

/-! ### Isolation -/

/-- Where a run comes to a name that is the clause's own, it leaves the captures alone, except in the source if the
name has no value yet.  So if the source assigns its own names only when they have values, then a run changes a
capture only if some clause assigns it as a variable of the code around the query. -/
theorem Query.sameClause_isolation {q : Query} {names : SymbolTable} {policy : ScopePolicy} {p : Pipeline} {c : Chain}
    {f : Flow} (h : q.lower names policy = .ok p) (hc : q.chain = .ok c) (hf : c.flow names = .ok f)
    (captures : Store) :
    (∀ k g u m x a b, p.Touches names captures k g u m → u.mention? = some (x, a) →
      f.Resolves k x a (.sameClause b) → (m.SparesCaptures g x ↔ (k = 0 → m.locals.contains x = true))) ∧
    ((∀ g u m x b, p.Touches names captures 0 g u m → u.mention? = some (x, true) →
        f.Resolves 0 x true (.sameClause b) → m.locals.contains x = true) →
      ∀ out captures', p.runWith names captures = .ok (out, captures') →
        ∀ y, captures'.get? y ≠ captures.get? y → ∃ k, f.Resolves k y true .outer) := by
  obtain ⟨c', f', first, rest, hacc⟩ := lower_eq_ok h
  obtain ⟨rfl, rfl⟩ := hacc.unique hc hf
  refine ⟨fun k g u m x a b htouch _ hr => hacc.sparesCaptures_iff htouch hr, ?_⟩
  intro hsource out captures' hrun
  exact hacc.changesOuter hsource hrun

/-- A filter that notes its integer outside: `from x in [7] where x is int i && (n = i) == 7 select i`. -/
def Query.notes : Query where
  pool :=
    { nodes := #[⟨.literal (.int 7), ⟨0, 1⟩⟩, ⟨.row .list ⟨0, 1⟩, ⟨2, 3⟩⟩, ⟨.ident ⟨1⟩, ⟨4, 5⟩⟩,
        ⟨.test (.hasType .int) ⟨2⟩ ⟨2⟩, ⟨6, 7⟩⟩, ⟨.ident ⟨2⟩, ⟨8, 9⟩⟩, ⟨.assign ⟨3⟩ ⟨4⟩, ⟨10, 11⟩⟩,
        ⟨.literal (.int 7), ⟨12, 13⟩⟩, ⟨.operator .eq ⟨5⟩ ⟨6⟩, ⟨14, 15⟩⟩, ⟨.connective .and ⟨3⟩ ⟨7⟩, ⟨16, 17⟩⟩,
        ⟨.ident ⟨2⟩, ⟨18, 19⟩⟩]
      lists := #[⟨0⟩] }
  clauses :=
    [⟨.source, ⟨1⟩, .one ⟨1⟩, .object, ⟨0, 1⟩⟩, ⟨.filter, ⟨8⟩, .none, .bool, ⟨0, 1⟩⟩,
      ⟨.select, ⟨9⟩, .none, .int, ⟨0, 1⟩⟩]

/-- The spellings of its names. -/
def Query.noteNames : SymbolTable := ⟨#["", "x", "i", "n"]⟩

theorem Query.notes_isolation : ∃ p c f, Query.notes.lower Query.noteNames .unique = .ok p ∧
    Query.notes.chain = .ok c ∧ c.flow Query.noteNames = .ok f ∧
    p.runWith Query.noteNames (.ofList [(⟨2⟩, .int 1), (⟨3⟩, .int 0)]) =
      .ok ([.int 7], .ofList [(⟨2⟩, .int 1), (⟨3⟩, .int 7)]) ∧
    (∀ x b, ¬ f.Resolves 0 x true (.sameClause b)) ∧ ∃ k, f.Resolves k ⟨3⟩ true .outer := by
  obtain ⟨p, hp⟩ : ∃ p, Query.notes.lower Query.noteNames .unique = .ok p := ⟨_, rfl⟩
  have hrun : (Query.notes.lower Query.noteNames .unique).toOption.map
      (fun p => p.runWith Query.noteNames (.ofList [(⟨2⟩, .int 1), (⟨3⟩, .int 0)])) =
        some (.ok ([.int 7], .ofList [(⟨2⟩, .int 1), (⟨3⟩, .int 7)])) := by cbv
  rw [hp] at hrun
  obtain ⟨c, f, first, rest, hacc⟩ := Query.lower_eq_ok hp
  have huses : Query.notes.chain.toOption.map (fun c => (c.usesFrom [] c.links).head?) = some (some []) := by cbv
  rw [hacc.chain] at huses
  have huses : (c.usesFrom [] c.links).head? = some [] := Option.some.inj huses
  have hsource : ∀ x b, ¬ f.Resolves 0 x true (.sameClause b) := by
    rintro x b ⟨u, hu, -⟩
    unfold Flow.usesIn at hu
    rw [hacc.rules.uses, ← List.head?_eq_getElem?, huses] at hu
    cases hu
  refine ⟨p, c, f, hp, hacc.chain, hacc.flow, Option.some.inj hrun, hsource, ?_⟩
  exact (Query.sameClause_isolation hp hacc.chain hacc.flow _).2 (fun g u m x b _ _ hr => absurd hr (hsource x b)) _ _
    (Option.some.inj hrun) ⟨3⟩ (by decide)

/-- A source that assigns a name of its own: `from x in [null is int i, i = 9] select x`. -/
def Query.leak : Query where
  pool :=
    { nodes := #[⟨.literal .null, ⟨0, 1⟩⟩, ⟨.test (.hasType .int) ⟨0⟩ ⟨2⟩, ⟨2, 3⟩⟩, ⟨.literal (.int 9), ⟨4, 5⟩⟩,
        ⟨.assign ⟨2⟩ ⟨2⟩, ⟨6, 7⟩⟩, ⟨.row .list ⟨0, 2⟩, ⟨8, 9⟩⟩, ⟨.ident ⟨1⟩, ⟨10, 11⟩⟩]
      lists := #[⟨1⟩, ⟨3⟩] }
  clauses := [⟨.source, ⟨4⟩, .one ⟨1⟩, .object, ⟨0, 1⟩⟩, ⟨.select, ⟨5⟩, .none, .object, ⟨0, 1⟩⟩]

/-- The spellings of its names. -/
def Query.leakNames : SymbolTable := ⟨#["", "x", "i"]⟩

/-- The source's test fails and leaves its name without a value, so the assignment goes to the capture of that name,
although no clause assigns a variable of the code around the query. -/
theorem Query.leak_changes_captures : ∃ p c f, Query.leak.lower Query.leakNames .unique = .ok p ∧
    Query.leak.chain = .ok c ∧ c.flow Query.leakNames = .ok f ∧
    p.runWith Query.leakNames (.ofList [(⟨2⟩, .int 5)]) =
      .ok ([.bool false, .int 9], .ofList [(⟨2⟩, .int 9)]) ∧
    (∀ k, ¬ f.Resolves k ⟨2⟩ true .outer) ∧
    ∃ g u m b, p.Touches Query.leakNames (.ofList [(⟨2⟩, .int 5)]) 0 g u m ∧ u.mention? = some (⟨2⟩, true) ∧
      f.Resolves 0 ⟨2⟩ true (.sameClause b) ∧ ¬ m.SparesCaptures g ⟨2⟩ := by
  obtain ⟨p, hp⟩ : ∃ p, Query.leak.lower Query.leakNames .unique = .ok p := ⟨_, rfl⟩
  have hrun : (Query.leak.lower Query.leakNames .unique).toOption.map
      (fun p => p.runWith Query.leakNames (.ofList [(⟨2⟩, .int 5)])) =
        some (.ok ([.bool false, .int 9], .ofList [(⟨2⟩, .int 9)])) := by cbv
  rw [hp] at hrun
  obtain ⟨c, f, first, rest, hacc⟩ := Query.lower_eq_ok hp
  have huses : (Query.leak.chain.toOption.bind fun c => (c.flow Query.leakNames).toOption).map Flow.uses =
      some [[⟨⟨2⟩, .sameClause ⟨1⟩, ⟨6, 7⟩, true, false⟩], [⟨⟨1⟩, .earlier ⟨0⟩, ⟨10, 11⟩, false, false⟩]] := by cbv
  have hterm : (Query.leak.lower Query.leakNames .unique).toOption.bind (fun p => p.pool.term? p.source) =
      some (.row ⟨⟨4⟩, ⟨8, 9⟩⟩ .list [.test ⟨⟨1⟩, ⟨2, 3⟩⟩ (.hasType .int) (.literal ⟨⟨0⟩, ⟨0, 1⟩⟩ .null) ⟨2⟩,
        .assign ⟨⟨3⟩, ⟨6, 7⟩⟩ ⟨2⟩ (.literal ⟨⟨2⟩, ⟨4, 5⟩⟩ (.int 9))]) := by cbv
  rw [hacc.chain] at huses
  simp only [Except.toOption, Option.bind_some, hacc.flow, Option.map_some, Option.some.injEq] at huses
  rw [hp] at hterm
  refine ⟨p, c, f, hp, hacc.chain, hacc.flow, Option.some.inj hrun, ?_, ⟨Query.leakNames, []⟩,
    .assign ⟨⟨3⟩, ⟨6, 7⟩⟩ ⟨2⟩ (.literal ⟨⟨2⟩, ⟨4, 5⟩⟩ (.int 9)), ⟨.empty, .ofList [(⟨2⟩, .int 5)]⟩, ⟨1⟩,
    ⟨p.source, _, _, .source, hterm, ?_⟩, rfl, ?_, ?_⟩
  · rintro k ⟨u, hu, -, -, houter⟩
    unfold Flow.usesIn at hu
    rw [huses] at hu
    rcases k with _ | _ | k
    · obtain rfl := List.mem_singleton.1 hu
      cases houter
    · obtain rfl := List.mem_singleton.1 hu
      cases houter
    · cases hu
  · -- the second item of the row is evaluated after the first, whose test fails
    have hfirst : Eval.each (Term.eval ⟨Query.leakNames, []⟩)
        [.test ⟨⟨1⟩, ⟨2, 3⟩⟩ (.hasType .int) (.literal ⟨⟨0⟩, ⟨0, 1⟩⟩ .null) ⟨2⟩] ⟨.empty, .ofList [(⟨2⟩, .int 5)]⟩ =
          .ok ([.bool false], ⟨.empty, .ofList [(⟨2⟩, .int 5)]⟩) := rfl
    exact .assign (.into (.item hfirst) .here) rfl
  · unfold Flow.Resolves Flow.usesIn
    rw [huses]
    exact ⟨_, List.mem_singleton.2 rfl, rfl, rfl, rfl⟩
  · rw [Memory.sparesCaptures_iff]
    decide

end QueryPipeline
