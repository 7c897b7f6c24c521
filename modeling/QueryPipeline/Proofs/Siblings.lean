import QueryPipeline.Proofs.NestedLoop

/-!
# Names that several tests bind

Tests on the two sides of `||` may bind one name.  In an expression without clashes they all give it the same type
(`Term.ty?_declared`), which is the type of the clause's variable (`Chain.At.pattern_ty`).  Therefore the variable has
a value of its type as soon as it has a value, whichever test has bound it (`Chain.Entered.own_typed`).
-/

namespace QueryPipeline

/-! ### Declarations and their types -/

namespace Declared

variable {a b d : Declared} {x : Symbol}

/-- The type of a name. -/
def ty? (a : Declared) (x : Symbol) : Option Ty := (a.find? x).map Declaration.ty

/-- Unless the second has clashes, the first has none either, and its names have the same types in the second. -/
def Within (a b : Declared) : Prop :=
  b.clashes = [] → a.clashes = [] ∧ ∀ x ty, a.ty? x = some ty → b.ty? x = some ty

theorem Within.refl (a : Declared) : a.Within a := fun h => ⟨h, fun _ _ hty => hty⟩

theorem Within.trans (hab : a.Within b) (hbd : b.Within d) : a.Within d := by
  intro h
  obtain ⟨hb, hty⟩ := hbd h
  obtain ⟨ha, hty'⟩ := hab hb
  exact ⟨ha, fun x ty hx => hty x ty (hty' x ty hx)⟩

private theorem find?_names (a b : Declared) (x : Symbol) :
    (a.names ++ b.names.filter fun d => (a.find? d.name).isNone).find? (fun d => d.name == x) =
      (a.find? x).or (b.find? x) := by
  rw [List.find?_append, List.find?_filter]
  have ha : a.names.find? (fun d => d.name == x) = a.find? x := rfl
  rw [ha]
  cases hx : a.find? x with
  | some e => rfl
  | none =>
    -- what the first does not declare is not left out of the second
    refine congrArg (fun p => Option.or Option.none (b.names.find? p)) (funext fun d => ?_)
    by_cases hd : d.name = x
    · simp [hd, hx]
    · simp [hd]

private theorem find?_also (a b : Declared) (x : Symbol) : (a.also b).find? x = (a.find? x).or (b.find? x) :=
  find?_names a b x

private theorem find?_orElse (a b : Declared) (x : Symbol) : (a.orElse b).find? x = (a.find? x).or (b.find? x) :=
  find?_names a b x

/-- Declarations that are looked at first keep their types. -/
private theorem within_of_first {both : List Clash} (hclashes : d.clashes = a.clashes ++ b.clashes ++ both)
    (hfind : ∀ x, d.find? x = (a.find? x).or (b.find? x)) : a.Within d := by
  intro h
  rw [hclashes] at h
  have ha : a.clashes = [] := (List.append_eq_nil_iff.1 (List.append_eq_nil_iff.1 h).1).1
  refine ⟨ha, fun x ty hty => ?_⟩
  obtain ⟨e, he, rfl⟩ := Option.map_eq_some_iff.1 hty
  rw [ty?, hfind, he]
  rfl

private theorem within_also_left (a b : Declared) : a.Within (a.also b) := within_of_first rfl (find?_also a b)

private theorem within_orElse_left (a b : Declared) : a.Within (a.orElse b) := within_of_first rfl (find?_orElse a b)

theorem mem_of_find? {e : Declaration} (h : a.find? x = some e) : e ∈ a.names ∧ e.name = x :=
  ⟨List.mem_of_find?_eq_some h, by simpa using List.find?_some h⟩

/-- A name that both declare would clash. -/
theorem within_also_right (a b : Declared) : b.Within (a.also b) := by
  intro h
  obtain ⟨hclashes, hboth⟩ := List.append_eq_nil_iff.1 h
  refine ⟨(List.append_eq_nil_iff.1 hclashes).2, fun x ty hty => ?_⟩
  obtain ⟨e, he, rfl⟩ := Option.map_eq_some_iff.1 hty
  obtain ⟨hmem, rfl⟩ := mem_of_find? he
  have hnone : a.find? e.name = Option.none := by
    have hfilter := List.filter_eq_nil_iff.1 (List.map_eq_nil_iff.1 hboth) e hmem
    simpa using hfilter
  rw [ty?, find?_also, hnone, he]
  rfl

/-- A name that both declare has one type in both, or it would clash. -/
theorem within_orElse_right (a b : Declared) : b.Within (a.orElse b) := by
  intro h
  obtain ⟨hclashes, hboth⟩ := List.append_eq_nil_iff.1 h
  refine ⟨(List.append_eq_nil_iff.1 hclashes).2, fun x ty hty => ?_⟩
  obtain ⟨e, he, rfl⟩ := Option.map_eq_some_iff.1 hty
  obtain ⟨hmem, rfl⟩ := mem_of_find? he
  have hclash := List.filterMap_eq_nil_iff.1 hboth e hmem
  rw [ty?, find?_orElse]
  cases ha : a.find? e.name with
  | none =>
    rw [he]
    rfl
  | some e' =>
    by_cases hsame : e'.ty = e.ty
    · exact congrArg some hsame
    · simp [ha, hsame] at hclash

end Declared

namespace Term

variable {t e : Term} {o : Origin} {q : Test} {x : Symbol}

private theorem within_declaredAfter (sofar : Declared) (ts : List Term) :
    sofar.Within (declaredAfter sofar ts) ∧ ∀ t ∈ ts, t.declared.Within (declaredAfter sofar ts) := by
  induction ts generalizing sofar with
  | nil => exact ⟨.refl sofar, fun t ht => by cases ht⟩
  | cons u ts ih =>
    obtain ⟨hsofar, hrest⟩ := ih (sofar.also u.declared)
    refine ⟨(Declared.within_also_left sofar u.declared).trans hsofar, fun t ht => ?_⟩
    rcases List.mem_cons.1 ht with rfl | ht
    · exact (Declared.within_also_right sofar t.declared).trans hsofar
    · exact hrest t ht

private theorem within_declared (he : e ∈ t.operands) : e.declared.Within t.declared := by
  cases t with
  | hole | literal | ident => cases he
  | connective o c l r =>
    simp only [operands, List.mem_cons, List.not_mem_nil, or_false] at he
    cases c with
    | and =>
      rcases he with rfl | rfl
      · exact Declared.within_also_left _ _
      · exact Declared.within_also_right _ _
    | or =>
      rcases he with rfl | rfl
      · exact Declared.within_orElse_left _ _
      · exact Declared.within_orElse_right _ _
  | operator o op l r =>
    simp only [operands, List.mem_cons, List.not_mem_nil, or_false] at he
    rcases he with rfl | rfl
    · exact Declared.within_also_left _ _
    · exact Declared.within_also_right _ _
  | not | neg | assign | part =>
    obtain rfl := List.mem_singleton.1 he
    exact .refl _
  | test o q e' x =>
    obtain rfl := List.mem_singleton.1 he
    rw [declared]
    split
    · exact Declared.within_also_left _ _
    · exact .refl _
  | row o kind items => exact (within_declaredAfter .none items).2 e he

/-- In a term without clashes, every test that binds a name gives it the type that the name is declared with. -/
theorem ty?_declared (h : t.declared.clashes = []) (ht : test o q e x ∈ t.preorder) (hx : x.isPresent = true) :
    t.declared.ty? x = some q.boundTy := by
  induction t using operandInduction with
  | step t ih =>
    rcases mem_preorder_iff.1 ht with rfl | ⟨e', he', ht⟩
    · rw [declared, if_pos hx] at h ⊢
      refine (Declared.within_also_right _ _ h).2 x _ ?_
      simp [Declared.ty?, Declared.find?, Declared.one]
    · obtain ⟨hclashes, hty⟩ := within_declared he' h
      exact hty x _ (ih e' he' hclashes ht)

/-- The variable of a name is typed as one of the tests that bind the name. -/
theorem exists_test_of_patternVariable {k : Nat} {bd : Binding} (h : bd ∈ t.patternVariables k) :
    ∃ o q e, test o q e bd.name ∈ t.preorder ∧ bd.name.isPresent = true ∧ bd.ty = q.boundTy := by
  obtain ⟨⟨y, u⟩, hy, rfl⟩ := List.mem_map.1 h
  obtain ⟨w, hw, hyu⟩ := List.mem_filterMap.1 (Symbol.mem_of_mem_firstOfEach hy)
  obtain ⟨z, hz, hzu⟩ := Option.map_eq_some_iff.1 hyu
  obtain ⟨rfl, rfl⟩ := Prod.mk.inj hzu
  rw [walk_eq] at hw
  cases w <;> simp only [bound?, reduceCtorEq] at hz
  rename_i o q e x
  split at hz
  · rename_i hpresent
    obtain rfl := Option.some.inj hz
    exact ⟨o, q, e, hw, hpresent, rfl⟩
  · cases hz

end Term

/-! ### Variables that tests bind -/

/-- What a test binds its variable to is of the variable's type. -/
theorem Test.Binds.accepts {q : Test} {x : Symbol} {v : Value} (h : q.Binds x v) : q.boundTy.accepts v = true := by
  cases q with
  | hasType ty => exact h.2
  | parsesInt =>
    obtain ⟨n, rfl⟩ := h
    rfl

namespace Chain

variable {c : Chain} {f : Flow} {names : SymbolTable} {policy : ScopePolicy}
variable {before rest : List Link} {l : Link} {C : Carrier} {b : BindingId} {bd : Binding}

private theorem ambiguitiesFrom_eq_nil {links : List Link} {k : Nat} (h : ambiguitiesFrom names k links = [])
    (hl : l ∈ links) : l.term.declared.clashes = [] := by
  induction links generalizing k with
  | nil => cases hl
  | cons l' links ih =>
    obtain ⟨hhere, hrest⟩ := List.append_eq_nil_iff.1 h
    rcases List.mem_cons.1 hl with rfl | hl
    · refine List.eq_nil_iff_forall_not_mem.2 fun clash hclash => ?_
      obtain ⟨clash', hfirst, -⟩ := Symbol.exists_mem_firstOfEach Clash.name hclash
      have hnone : l.term.clashes = [] := List.map_eq_nil_iff.1 hhere
      rw [Term.clashes] at hnone
      rw [hnone] at hfirst
      cases hfirst
    · exact ih hrest hl

/-- A chain with a flow has no clashes. -/
theorem flow_clashes (h : c.flow names = .ok f) (hl : l ∈ c.links) : l.term.declared.clashes = [] := by
  obtain ⟨_, hcheck, -⟩ := Except.bind_eq_ok.1 h
  have hsorted : c.ambiguities names = [] := Report.check_eq_ok.1 hcheck
  have hnone : ambiguitiesFrom names 0 c.links = [] := by
    refine List.eq_nil_iff_forall_not_mem.2 fun r hr => ?_
    have hmem : r ∈ c.ambiguities names := Rejection.mem_sort.2 hr
    rw [hsorted] at hmem
    cases hmem
  exact ambiguitiesFrom_eq_nil hnone hl

/-- All tests of a pattern variable's name bind values of the variable's type. -/
theorem At.pattern_ty (hat : c.At before l rest) (hc : c.Formed) (hclashes : l.term.declared.clashes = [])
    (hb : b ∈ l.patterns.ids) (hbd : c.binding? b = some bd) {o : Origin} {q : Test} {e : Term}
    (ht : Term.test o q e bd.name ∈ l.term.preorder) : q.boundTy = bd.ty := by
  obtain ⟨cl, hof, -⟩ := hc _ _ _ hat
  obtain ⟨bd', hmem, hbd'⟩ := hof.pattern_binding hb
  rw [← binding?_eq] at hbd'
  obtain rfl := Option.mem_unique hbd hbd'
  obtain ⟨o', q', e', ht', hpresent, hty⟩ := Term.exists_test_of_patternVariable hmem
  have hone := Term.ty?_declared hclashes ht hpresent
  rw [Term.ty?_declared hclashes ht' hpresent] at hone
  rw [hty]
  exact (Option.some.inj hone).symm

/-- Unless the clause assigns to it, a variable that its tests bind has no value but one of its type. -/
theorem Entered.own_typed (h : c.Entered f names policy before l rest C) (hclashes : l.term.declared.clashes = [])
    (hassign : ¬ l.AssignsOwn) {locals locals' : Store} (honly : HoldsOnly C locals) {w : Value}
    (heval : l.term.Evaluated (l.setting names) locals w locals') (hb : b ∈ l.patterns.ids)
    (hbd : c.binding? b = some bd) {u : Value} (hu : locals'.get? bd.name = some u) : bd.ty.accepts u = true := by
  have hbound := h.place.own_bound h.rules.formed hb hbd
  obtain ⟨captures, captures', heval⟩ := heval
  refine Term.eval_keeps (P := fun m => ∀ u, m.locals.get? bd.name = some u → bd.ty.accepts u = true) ?_ ?_ ?_
    heval u hu
  · intro t ht x hmention v m m' hm hstore u hu
    have hne : x ≠ bd.name := fun heq => hassign ⟨t, ht, x, heq ▸ hbound, hmention⟩
    rcases Eval.store_eq_ok.1 hstore with ⟨-, rfl⟩ | ⟨-, -, rfl⟩
    · rw [Store.get?_insert, if_neg hne] at hu
      exact hm u hu
    · exact hm u hu
  · intro o q e x ht v m hbinds hm u hu
    by_cases heq : x = bd.name
    · subst heq
      rw [Store.get?_insert, if_pos rfl] at hu
      obtain rfl := Option.some.inj hu
      rw [← h.place.pattern_ty h.rules.formed hclashes hb hbd ht]
      exact hbinds.accepts
    · rw [Store.get?_insert, if_neg heq] at hu
      exact hm u hu
  · -- it does not come in, so it has no value at first
    intro u hu
    rw [h.own_free honly (List.mem_append_right _ hb) hbd] at hu
    cases hu

end Chain

end QueryPipeline
