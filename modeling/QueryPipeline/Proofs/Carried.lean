import QueryPipeline.Proofs.Stages

/-!
# Variables that come in

The rules of scope keep the names of lasting variables apart, so no two fields of a carrier share a name
(`Chain.Carries.names_nodup`), and no test of a clause binds the name of a field that comes in
(`Chain.Entered.field_not_bound`).  No clause assigns a variable of an earlier one either.  Therefore the expression
of a clause leaves what comes in as it was (`Chain.Entered.field_kept`).
-/

namespace QueryPipeline

namespace Chain

variable {c : Chain} {f : Flow} {names : SymbolTable} {policy : ScopePolicy}
variable {before rest : List Link} {l : Link} {C : Carrier} {locals : Store}

/-! ### Names of lasting variables -/

/-- Lasting variables of different bindings have different names. -/
theorem KeepsRules.eq_of_name_eq (h : c.KeepsRules f names policy) (hlinks : c.links = before.reverse ++ rest)
    {a b : BindingId} {bda bdb : Binding} (ha : Introduces before a) (hbda : c.binding? a = some bda)
    (hlast : c.Lasts policy bda) (hb : Introduces before b) (hbdb : c.binding? b = some bdb)
    (hlast' : c.Lasts policy bdb) (heq : bda.name = bdb.name) : a = b := by
  induction before generalizing rest with
  | nil =>
    obtain ⟨l, hl, -⟩ := ha
    cases hl
  | cons l before ih =>
    have hat : c.At before l rest := by unfold Chain.At; rw [hlinks]; simp
    -- of two clauses, the later one introduces no name that still lasts
    obtain ⟨l₁, hl₁, ha⟩ := ha
    obtain ⟨l₂, hl₂, hb⟩ := hb
    rcases List.mem_cons.1 hl₁ with rfl | hm₁ <;> rcases List.mem_cons.1 hl₂ with rfl | hm₂
    · exact h.distinct hat ha hbda hb hbdb heq
    · exact absurd heq.symm (h.fresh hat hm₂ hb hbdb hlast' ha hbda)
    · exact absurd heq (h.fresh hat hm₁ ha hbda hlast hb hbdb)
    · exact ih hat ⟨l₁, hm₁, ha⟩ ⟨l₂, hm₂, hb⟩

theorem Carries.eq_of_name_eq (h : c.KeepsRules f names policy) (hlinks : c.links = before.reverse ++ rest)
    (hC : c.Carries policy before rest C) {fd fd' : Field} (hfd : fd ∈ C.fields) (hfd' : fd' ∈ C.fields)
    (heq : fd.name = fd'.name) : fd.binding = fd'.binding := by
  obtain ⟨hint, bd, hbd, hname, -, hlast⟩ := hC.sound fd hfd
  obtain ⟨hint', bd', hbd', hname', -, hlast'⟩ := hC.sound fd' hfd'
  exact h.eq_of_name_eq hlinks hint hbd hlast hint' hbd' hlast' (by rw [← hname, ← hname', heq])

theorem Carries.names_nodup (h : c.KeepsRules f names policy) (hlinks : c.links = before.reverse ++ rest)
    (hC : c.Carries policy before rest C) : (C.fields.map Field.name).Nodup := by
  have hnodup := hC.nodup
  rw [List.nodup_iff_pairwise_ne, List.pairwise_map] at hnodup ⊢
  exact hnodup.imp_of_mem fun hfd hfd' hne heq => hne (hC.eq_of_name_eq h hlinks hfd hfd' heq)

/-! ### Clauses and what comes in -/

/-- A clause of a chain that keeps the rules, with the carrier that comes in.  All names that its tests bind have
bindings. -/
structure Entered (c : Chain) (f : Flow) (names : SymbolTable) (policy : ScopePolicy) (before : List Link) (l : Link)
    (rest : List Link) (C : Carrier) : Prop where
  rules : c.KeepsRules f names policy
  place : c.At before l rest
  carries : c.Carries policy before (l :: rest) C
  fit : c.PatternsFit

namespace Entered

variable {x : Symbol} {b : BindingId} {bd : Binding} {fd : Field}

theorem term (h : c.Entered f names policy before l rest C) : c.pool.term? l.expr = some l.term := by
  obtain ⟨cl, hof, -⟩ := h.rules.formed _ _ _ h.place
  rw [hof.expr]
  exact hof.term

theorem field_present (h : c.Entered f names policy before l rest C) (hfd : fd ∈ C.fields) :
    fd.name.isPresent = true := by
  obtain ⟨⟨l', hl', hid⟩, bd, hbd, hname, -⟩ := h.carries.sound fd hfd
  obtain ⟨before', rest', hat, -⟩ := h.place.of_mem hl'
  obtain ⟨bd', hbd', -, hpresent⟩ := hat.id h.rules.formed hid
  obtain rfl := Option.mem_unique hbd hbd'
  rw [hname]
  exact hpresent

theorem field_ne (h : c.Entered f names policy before l rest C) (hfd : fd ∈ C.fields) (hb : b ∈ l.ids)
    (hbd : c.binding? b = some bd) : fd.name ≠ bd.name := by
  obtain ⟨⟨l', hl', hid⟩, bd', hbd', hname, -, hlast⟩ := h.carries.sound fd hfd
  rw [hname]
  exact h.rules.fresh h.place hl' hid hbd' hlast hb hbd

theorem field_binding_ne (h : c.Entered f names policy before l rest C) (hfd : fd ∈ C.fields) (hb : b ∈ l.ids) :
    fd.binding ≠ b := by
  rintro rfl
  obtain ⟨-, bd, hbd, hname, -⟩ := h.carries.sound fd hfd
  exact h.field_ne hfd hb hbd hname

theorem own_free (h : c.Entered f names policy before l rest C) (honly : HoldsOnly C locals) (hb : b ∈ l.ids)
    (hbd : c.binding? b = some bd) : locals.get? bd.name = none := by
  refine Store.contains_eq_false.1 (Bool.eq_false_iff.2 fun hheld => ?_)
  obtain ⟨fd, hfd, hname⟩ := (honly bd.name).1 hheld
  exact h.field_ne hfd hb hbd hname

theorem exists_own (h : c.Entered f names policy before l rest C) (hx : x ∈ l.term.boundNames) :
    ∃ b, c.resolve x l before = .sameClause b ∧ b ∈ l.patterns.ids ∧ ∃ bd, c.binding? b = some bd ∧ bd.name = x := by
  obtain ⟨b, hr⟩ := resolve_of_bound h.place h.rules.formed h.fit hx
  exact ⟨b, hr, resolve_eq_sameClause hr⟩

/-- The tests of a clause bind no name that comes in. -/
theorem field_not_bound (h : c.Entered f names policy before l rest C) (hfd : fd ∈ C.fields) :
    fd.name ∉ l.term.boundNames := by
  intro hx
  obtain ⟨b, -, hb, bd, hbd, hname⟩ := h.exists_own hx
  exact h.field_ne hfd (List.mem_append_right _ hb) hbd hname.symm

/-- What is neither the clause's own nor an earlier clause's does not come in. -/
theorem outer_ne (h : c.Entered f names policy before l rest C) (hr : c.resolve x l before = .outer)
    (hfd : fd ∈ C.fields) : fd.name ≠ x := by
  obtain ⟨⟨l', hl', hid⟩, bd, hbd, hname, -⟩ := h.carries.sound fd hfd
  rw [hname]
  exact denotedBefore_eq_outer (resolve_eq_outer hr) hl' hid hbd

/-- A clause assigns no variable that comes in. -/
theorem field_not_assigned (h : c.Entered f names policy before l rest C) (hfd : fd ∈ C.fields) {t : Term}
    (ht : t ∈ l.term.preorder) : t.mention? ≠ some (fd.name, true) := by
  intro hmention
  cases hr : c.resolve fd.name l before with
  | sameClause b =>
    obtain ⟨hb, bd, hbd, hname⟩ := resolve_eq_sameClause hr
    exact h.field_ne hfd (List.mem_append_right _ hb) hbd hname.symm
  | earlier b => cases (h.rules.earlier h.place ht hmention hr).1
  | outer => exact h.outer_ne hr hfd rfl

/-- The expression of a clause leaves what comes in as it was. -/
theorem field_kept (h : c.Entered f names policy before l rest C) {w : Value} {locals' : Store}
    (heval : l.term.Evaluated (l.setting names) locals w locals') (hfd : fd ∈ C.fields) :
    locals'.get? fd.name = locals.get? fd.name := by
  obtain ⟨captures, captures', heval⟩ := heval
  refine Term.eval_keeps (P := fun m => m.locals.get? fd.name = locals.get? fd.name) ?_ ?_ rfl heval
  · intro t ht x hmention v m m' hm hstore
    have hne : x ≠ fd.name := by
      rintro rfl
      exact h.field_not_assigned hfd ht hmention
    rcases Eval.store_eq_ok.1 hstore with ⟨-, rfl⟩ | ⟨-, -, rfl⟩
    · simp only [Store.get?_insert, if_neg hne, hm]
    · exact hm
  · intro o q e x ht v m _ hm
    have hne : x ≠ fd.name := by
      rintro rfl
      exact h.field_not_bound hfd (Term.mem_boundNames.2 ⟨h.field_present hfd, o, q, e, ht⟩)
    simp only [Store.get?_insert, if_neg hne, hm]

end Entered

end Chain

end QueryPipeline
