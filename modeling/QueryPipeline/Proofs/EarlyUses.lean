import Mathlib
import QueryPipeline.Proofs.Rejections
import QueryPipeline.Proofs.Sharing

/-!
# Uses that come too early

A use of a clause's own variable is marked if it gets its value before all the tests that bind the variable.  When an
evaluation comes to a node, it has made only tests that stand before the node in the order of evaluation
(`Term.Touches.settled`).  If the expression is a tree, each node has one place in that order, and so the variable of a
marked use has no value when an evaluation comes to the use: the evaluation fails there (`Query.early_use_fails`).
A use of the clause's own variable that is not marked comes after a test that binds the variable.
-/

namespace QueryPipeline

namespace Term

variable {g : Setting} {t u e : Term} {m m' : Memory} {x : Symbol} {f : Failure Fault}

/-! ### A failure on the way -/

private theorem each_error_of {done rest : List Term} {vs : List Value}
    (h : Eval.each (Term.eval g) done m = .ok (vs, m')) (he : e.eval g m' = .error f) :
    Eval.each (Term.eval g) (done ++ e :: rest) m = .error f := by
  induction done generalizing m vs with
  | nil =>
    obtain ⟨-, rfl⟩ := Prod.mk.inj (Except.ok.inj h)
    exact Computation.bind_eq_error.2 (Or.inl he)
  | cons d done ih =>
    obtain ⟨v, m₁, hv, h⟩ := Computation.bind_eq_ok.1 h
    obtain ⟨ws, m₂, hws, h⟩ := Computation.bind_eq_ok.1 h
    obtain ⟨-, rfl⟩ := Prod.mk.inj (Except.ok.inj h)
    exact Computation.bind_eq_error.2 (Or.inr ⟨v, m₁, hv, Computation.bind_eq_error.2 (Or.inl (ih hws))⟩)

/-- What an operand fails with, the term fails with. -/
theorem Enters.eval_error (h : Enters g t m e m') (he : e.eval g m' = .error f) : t.eval g m = .error f := by
  cases h with
  | left | operatorLeft | not | neg | test | assign | part => exact Computation.bind_eq_error.2 (Or.inl he)
  | right hl ha =>
    refine Computation.bind_eq_error.2 (Or.inr ⟨_, m', hl, Computation.bind_eq_error.2 (Or.inr ⟨_, m', rfl, ?_⟩)⟩)
    rw [if_pos ha]
    exact Computation.bind_eq_error.2 (Or.inl he)
  | operatorRight hl => exact Computation.bind_eq_error.2 (Or.inr ⟨_, m', hl, Computation.bind_eq_error.2 (Or.inl he)⟩)
  | item hdone =>
    rw [eval, evalVia, evalAllVia_eq]
    exact Computation.bind_eq_error.2 (Or.inl (each_error_of hdone he))

theorem Reaches.eval_error (h : Reaches g t m u m') (hu : u.eval g m' = .error f) : t.eval g m = .error f := by
  induction h with
  | here => exact hu
  | into h _ ih => exact h.eval_error (ih hu)

/-- If reading and assigning the variable fail where an evaluation comes to a mention of it, the evaluation fails. -/
theorem Touches.eval_error {a : Bool} (h : Touches g t m u m') (hx : u.mention? = some (x, a))
    (hread : Eval.read g x m' = .error f) (hstore : ∀ v, Eval.store g x v m' = .error f) :
    t.eval g m = .error f := by
  cases h with
  | read h =>
    obtain ⟨rfl, -⟩ := Prod.mk.inj (Option.some.inj hx)
    exact h.eval_error hread
  | assign h he =>
    obtain ⟨rfl, -⟩ := Prod.mk.inj (Option.some.inj hx)
    refine h.eval_error (Computation.bind_eq_error.2 (Or.inr ⟨_, m', he, ?_⟩))
    exact Computation.bind_eq_error.2 (Or.inl (hstore _))

/-! ### Tests made before a node is come to -/

private theorem mem_postorder_iff : u ∈ t.postorder ↔ u ∈ t.preorder := by
  rw [← settled_eq, ← walk_eq]
  exact t.walk_perm_settled.mem_iff.symm

private theorem postorders_append (ts us : List Term) : postorders (ts ++ us) = postorders ts ++ postorders us := by
  induction ts with
  | nil => rfl
  | cons t ts ih => simp [postorders, ih]

private theorem bound?_of_mention {a : Bool} (h : t.mention? = some (x, a)) : t.bound? = none := by
  cases t <;> first | rfl | cases h

private theorem bound?_test {o : Origin} {q : Test} (hx : x.isPresent = true) : (test o q e x).bound? = some x := by
  simp [bound?, hx]

/-- From one memory to the other, the names that get values are bound by tests among the nodes. -/
def BindsOnly (ts : List Term) (m m' : Memory) : Prop :=
  ∀ x : Symbol, x.isPresent = true → (∀ d ∈ ts, d.bound? ≠ some x) → m.locals.get? x = none →
    m'.locals.get? x = none

theorem BindsOnly.refl (m : Memory) : BindsOnly [] m m := fun _ _ _ hm => hm

theorem BindsOnly.trans {ts us : List Term} {m₁ : Memory} (h : BindsOnly ts m m₁) (h' : BindsOnly us m₁ m') :
    BindsOnly (ts ++ us) m m' := by
  intro x hpresent hfree hm
  have hm₁ := h x hpresent (fun d hd => hfree d (List.mem_append_left _ hd)) hm
  exact h' x hpresent (fun d hd => hfree d (List.mem_append_right _ hd)) hm₁

private theorem eval_bindsOnly {v : Value} (h : t.eval g m = .ok (v, m')) : BindsOnly t.postorder m m' := by
  intro x hpresent hfree hm
  refine eval_keeps (P := fun m => m.locals.get? x = none) ?_ ?_ hm h
  · -- an assignment changes a variable of the stage only if it has a value
    intro u _ y _ w m₁ m₂ hm₁ hstore
    rcases Eval.store_eq_ok.1 hstore with ⟨hcontains, rfl⟩ | ⟨-, -, rfl⟩
    · have hne : y ≠ x := by
        rintro rfl
        rw [Store.contains_eq_false.2 hm₁] at hcontains
        cases hcontains
      rw [Store.get?_insert, if_neg hne]
      exact hm₁
    · exact hm₁
  · intro o q e y htest w m₁ _ hm₁
    have hne : y ≠ x := by
      rintro rfl
      exact hfree _ (mem_postorder_iff.2 htest) (bound?_test hpresent)
    rw [Store.get?_insert, if_neg hne]
    exact hm₁

private theorem each_bindsOnly {ts : List Term} {vs : List Value} (h : Eval.each (Term.eval g) ts m = .ok (vs, m')) :
    BindsOnly (postorders ts) m m' := by
  induction ts generalizing m vs with
  | nil =>
    obtain ⟨-, rfl⟩ := Prod.mk.inj (Except.ok.inj h)
    exact .refl m
  | cons t ts ih =>
    obtain ⟨v, m₁, hv, h⟩ := Computation.bind_eq_ok.1 h
    obtain ⟨ws, m₂, hws, h⟩ := Computation.bind_eq_ok.1 h
    obtain ⟨-, rfl⟩ := Prod.mk.inj (Except.ok.inj h)
    exact (eval_bindsOnly hv).trans (ih hws)

/-- The operands before the one that is gone on with have been evaluated. -/
theorem Enters.split (h : Enters g t m e m') : ∃ done rest vs, t.operands = done ++ e :: rest ∧
    Eval.each (Term.eval g) done m = .ok (vs, m') := by
  cases h with
  | left | operatorLeft | not | neg | test | assign | part => exact ⟨[], _, [], rfl, rfl⟩
  | right hl _ => exact ⟨[_], [], _, rfl, Computation.bind_eq_ok.2 ⟨_, m', hl, rfl⟩⟩
  | operatorRight hl => exact ⟨[_], [], _, rfl, Computation.bind_eq_ok.2 ⟨_, m', hl, rfl⟩⟩
  | item hdone => exact ⟨_, _, _, rfl, hdone⟩

/-- When an evaluation comes to a node, the tests that have been made stand before all the nodes of it in the order of
evaluation. -/
theorem Reaches.settled (h : Reaches g t m u m') :
    ∃ pre post, t.postorder = pre ++ u.postorder ++ post ∧ BindsOnly pre m m' := by
  induction h with
  | here => exact ⟨[], [], by simp, .refl _⟩
  | @into t m e m₁ u m' h _ ih =>
    obtain ⟨done, rest, vs, hoperands, hdone⟩ := h.split
    obtain ⟨pre, post, horder, honly⟩ := ih
    refine ⟨postorders done ++ pre, post ++ postorders rest ++ [t], ?_, ?_⟩
    · rw [postorder_eq, hoperands, postorders_append, postorders, horder]
      simp
    · exact (each_bindsOnly hdone).trans honly

/-- When an evaluation reads or assigns a variable at a node, the tests that have been made stand before the node in the
order of evaluation. -/
theorem Touches.settled (h : Touches g t m u m') : ∃ pre post, t.postorder = pre ++ u :: post ∧ BindsOnly pre m m' := by
  cases h with
  | read h =>
    obtain ⟨pre, post, horder, honly⟩ := h.settled
    exact ⟨pre, post, by simpa [postorder] using horder, honly⟩
  | @assign o y e m₁ v m' h he =>
    -- the nodes of the value stand between
    obtain ⟨pre, post, horder, honly⟩ := h.settled
    exact ⟨pre ++ e.postorder, post, by simpa [postorder] using horder, honly.trans (eval_bindsOnly he)⟩

end Term

/-! ### Marks in a tree -/

/-- No node of the clause's expression stands at two places. -/
def Link.IsTree (l : Link) : Prop := (l.term.walk.map Term.id).Nodup

instance : DecidablePred Link.IsTree := fun l => inferInstanceAs (Decidable (l.term.walk.map Term.id).Nodup)

namespace Link

variable {l : Link} {u : Term} {x : Symbol}

theorem IsTree.settledAt_eq (h : l.IsTree) {i : Nat} (hi : l.term.settled[i]? = some u) :
    settledAt l.term.settled u.id = i := by
  refine settledAt_of_count hi ?_
  have hperm := l.term.walk_perm_settled.map Term.id
  rw [← hperm.count_eq]
  refine List.count_eq_one_of_mem h (hperm.mem_iff.2 ?_)
  exact List.mem_map_of_mem (List.mem_of_getElem? hi)

private theorem isBeforeTest_iff : l.isBeforeTest u x = true ↔ ∀ d ∈ l.term.settled, d.bound? = some x →
    settledAt l.term.settled u.id < settledAt l.term.settled d.id := by
  unfold isBeforeTest declaredAt?
  cases hmin : ((l.term.settled.filter fun t => t.bound? = some x).map fun t =>
      settledAt l.term.settled t.id).min? with
  | none =>
    rw [List.min?_eq_none_iff, List.map_eq_nil_iff, List.filter_eq_nil_iff] at hmin
    refine iff_of_true rfl ?_
    intro d hd hbound
    exact absurd (decide_eq_true hbound) (hmin d hd)
  | some first =>
    obtain ⟨hmem, hfirst⟩ := List.min?_eq_some_iff.1 hmin
    rw [Option.all_some, decide_eq_true_iff]
    constructor
    · intro hlt d hd hbound
      have hle := hfirst _ (List.mem_map_of_mem (List.mem_filter.2 ⟨hd, by simpa using hbound⟩))
      omega
    · intro hall
      obtain ⟨d, hd, rfl⟩ := List.mem_map.1 hmem
      obtain ⟨hd, hbound⟩ := List.mem_filter.1 hd
      exact hall d hd (by simpa using hbound)

/-- In a tree, a node is before the tests of a name exactly if none of them stands before it in the order of
evaluation. -/
theorem IsTree.isBeforeTest_iff (h : l.IsTree) {pre post : List Term} (horder : l.term.postorder = pre ++ u :: post)
    (hu : u.bound? = none) : l.isBeforeTest u x = true ↔ ∀ d ∈ pre, d.bound? ≠ some x := by
  rw [← Term.settled_eq] at horder
  have hat : settledAt l.term.settled u.id = pre.length := h.settledAt_eq (by rw [horder]; simp)
  rw [Link.isBeforeTest_iff, hat]
  constructor
  · intro hall d hd hbound
    obtain ⟨j, hj⟩ := List.getElem?_of_mem hd
    have hlt : j < pre.length := (List.getElem?_eq_some_iff.1 hj).1
    have hplace : l.term.settled[j]? = some d := by rw [horder, List.getElem?_append_left hlt, hj]
    have hearly := hall d (List.mem_of_getElem? hplace) hbound
    rw [h.settledAt_eq hplace] at hearly
    omega
  · intro hfree d hd hbound
    obtain ⟨j, hj⟩ := List.getElem?_of_mem hd
    rw [h.settledAt_eq hj]
    rw [horder] at hj
    by_contra hlate
    rcases Nat.lt_or_eq_of_le (Nat.le_of_not_lt hlate) with hlt | rfl
    · rw [List.getElem?_append_left hlt] at hj
      exact hfree d (List.mem_of_getElem? hj) hbound
    · obtain rfl : u = d := by simpa using hj
      rw [hu] at hbound
      cases hbound

end Link

/-! ### Marked uses -/

private theorem Eval.read_unbound {g : Setting} {m : Memory} {x : Symbol} (hdeclared : g.declared.contains x = true)
    (hm : m.locals.get? x = none) : Eval.read g x m = .error (.error (g.unbound x)) := by
  have hfind : m.find? g x = none := by rw [Memory.find?, hm, hdeclared, if_pos rfl, Option.none_or]
  refine Computation.bind_eq_error.2 (Or.inr ⟨m, m, rfl, ?_⟩)
  rw [hfind]
  rfl

private theorem Eval.store_unbound {g : Setting} {m : Memory} {x : Symbol} (hdeclared : g.declared.contains x = true)
    (hm : m.locals.get? x = none) (v : Value) : Eval.store g x v m = .error (.error (g.unbound x)) := by
  have hcontains := Store.contains_eq_false.2 hm
  simp only [Eval.store_apply, hcontains, hdeclared, Bool.false_eq_true, if_false, if_true]

/-- No evaluation of the clause's expression gets past the node if it starts without values for the names that the
clause's tests bind: the variable has no value there, neither to be read nor to be assigned, and the evaluation fails
with that. -/
def Chain.FailsAt (c : Chain) (l : Link) (names : SymbolTable) (u : Term) (x : Symbol) : Prop :=
  ∀ m m', (∀ y ∈ l.term.boundNames, m.locals.get? y = none) → l.term.Touches (l.setting names) m u m' →
    Eval.read (l.setting names) x m' = .error (.error (.unbound (names.spelling x))) ∧
    (∀ v, Eval.store (l.setting names) x v m' = .error (.error (.unbound (names.spelling x)))) ∧
    c.pool.eval (l.setting names) l.expr m = .error (.error (.unbound (names.spelling x)))

namespace Chain

variable {c : Chain} {before rest : List Link} {l : Link} {names : SymbolTable} {u : Term} {use : Use} {b : BindingId}

private theorem useAt_eq_some (h : c.useAt l before u = some use) :
    u.mention? = some (use.name, use.isAssignment) ∧ use.resolution = c.resolve use.name l before ∧
      (use.beforeDeclaration = true ↔
        (∃ b, use.resolution = .sameClause b) ∧ l.isBeforeTest u use.name = true) := by
  obtain ⟨⟨x, a⟩, hm, rfl⟩ := Option.map_eq_some_iff.1 h
  refine ⟨hm, rfl, ?_⟩
  cases c.resolve x l before <;> simp

/-- In a tree, an evaluation that comes to a marked use fails there. -/
theorem failsAt_of_marked (hat : c.At before l rest) (hc : c.Formed) (htree : l.IsTree)
    (huse : c.useAt l before u = some use) (hmark : use.beforeDeclaration = true) :
    c.FailsAt l names u use.name := by
  intro m m' hm htouch
  obtain ⟨hmention, hresolve, hmarked⟩ := useAt_eq_some huse
  obtain ⟨⟨b, hb⟩, hbefore⟩ := hmarked.1 hmark
  obtain ⟨cl, hof, -, -, -⟩ := hc _ _ _ hat
  have hdeclared := hat.own_declared hc names (hresolve.symm.trans hb)
  have hbound : use.name ∈ l.term.boundNames := List.contains_iff_mem.1 hdeclared
  obtain ⟨pre, post, horder, honly⟩ := htouch.settled
  have hfree := (htree.isBeforeTest_iff horder (Term.bound?_of_mention hmention)).1 hbefore
  have hnone := honly use.name (Term.mem_boundNames.1 hbound).1 hfree (hm _ hbound)
  have hread := Eval.read_unbound hdeclared hnone
  have hstore := Eval.store_unbound hdeclared hnone
  refine ⟨hread, hstore, ?_⟩
  rw [hof.expr, Pool.eval_of_term hof.term]
  exact htouch.eval_error hmention hread hstore

/-- In a tree, a use of the clause's own variable that is not marked comes after a test that binds the variable. -/
theorem exists_test_of_unmarked (htree : l.IsTree) (hu : u ∈ l.term.walk) (huse : c.useAt l before u = some use)
    (hb : use.resolution = .sameClause b) (hmark : use.beforeDeclaration = false) :
    ∃ pre d mid post, l.term.postorder = pre ++ d :: mid ++ u :: post ∧ d.bound? = some use.name := by
  obtain ⟨hmention, -, hmarked⟩ := useAt_eq_some huse
  rw [Term.walk_eq, ← Term.mem_postorder_iff] at hu
  obtain ⟨done, post, horder⟩ := List.append_of_mem hu
  have hbefore : ¬ l.isBeforeTest u use.name = true := by
    intro hbefore
    rw [hmarked.2 ⟨⟨b, hb⟩, hbefore⟩] at hmark
    cases hmark
  rw [htree.isBeforeTest_iff horder (Term.bound?_of_mention hmention)] at hbefore
  push Not at hbefore
  obtain ⟨d, hd, hbound⟩ := hbefore
  obtain ⟨pre, mid, rfl⟩ := List.append_of_mem hd
  exact ⟨pre, d, mid, post, horder, hbound⟩

/-! ### Rejected uses -/

private theorem mem_unassignedFrom {f : Flow} {k : Nat} {uses : List (List Use)} {r : Rejection}
    (h : r ∈ f.unassignedFrom names k uses) : ∃ i us use, uses[i]? = some us ∧ use ∈ us ∧
      f.isUnassigned (k + i) use = true ∧ r = ⟨k + i, use.span, .unassigned (names.spelling use.name)⟩ := by
  induction uses generalizing k with
  | nil => cases h
  | cons us uses ih =>
    rcases List.mem_append.1 h with h | h
    · obtain ⟨use, huse, rfl⟩ := List.mem_map.1 h
      obtain ⟨huse, hun⟩ := List.mem_filter.1 huse
      exact ⟨0, us, use, rfl, huse, hun, rfl⟩
    · obtain ⟨i, us', use, hi, huse, hun, rfl⟩ := ih h
      have hplace : k + 1 + i = k + (i + 1) := by omega
      rw [hplace] at hun ⊢
      exact ⟨i + 1, us', use, hi, huse, hun, rfl⟩

private theorem mem_readOnlyAssignments {f : Flow} {r : Rejection} (h : r ∈ c.readOnlyAssignments f names) :
    ∃ use ∈ f.usesIn r.clause, ∃ b, use.resolution.binding? = some b ∧
      (use.beforeDeclaration = true ∨ (c.binding? b).any (·.isAssignableIn r.clause) = false) ∧
      r = ⟨r.clause, use.span, .readOnly (names.spelling use.name)⟩ := by
  obtain ⟨⟨k, use⟩, hmem, h⟩ := List.mem_filterMap.1 h
  obtain ⟨k', -, hmem⟩ := List.mem_flatMap.1 hmem
  obtain ⟨use', huse, heq⟩ := List.mem_map.1 hmem
  obtain ⟨rfl, rfl⟩ := Prod.mk.inj heq
  dsimp only at h
  split at h
  · rename_i b hb
    split at h
    · rename_i hcond
      obtain rfl := Option.some.inj h
      rw [Bool.and_eq_true, Bool.or_eq_true, Bool.not_eq_true'] at hcond
      exact ⟨use', huse, b, hb, hcond.2, rfl⟩
    · cases h
  · cases h

/-- A variable of the clause can be assigned there. -/
theorem At.own_assignable (hat : c.At before l rest) (hc : c.Formed) (hb : b ∈ l.patterns.ids) :
    (c.binding? b).any (·.isAssignableIn before.length) = true := by
  obtain ⟨bd, hbd, hkind, hclause, -⟩ := hat.pattern_id hc hb
  simp [hbd, Binding.isAssignableIn, Binding.isPattern, hkind, hclause]

/-- What is rejected for want of a value or as an assignment is some use, and if the use is of the clause's own
variable, it is marked. -/
theorem At.rejected_use (hat : c.At before l rest) (hc : c.Formed) {f : Flow} (hflow : c.flow names = .ok f)
    {r : Rejection} (hr : r ∈ f.unassignedFrom names 0 f.uses ∨ r ∈ c.readOnlyAssignments f names)
    (hclause : r.clause = before.length) :
    ∃ use ∈ c.usesOf l before, r.span = use.span ∧ r.cause.subject? = some (names.spelling use.name) ∧
      ∀ b, use.resolution = .sameClause b → use.beforeDeclaration = true := by
  obtain ⟨-, huses⟩ := Chain.flow_eq_ok hflow
  have hat' : f.uses[before.length]? = some (c.usesOf l before) := by rw [huses, hat.usesFrom_getElem?]
  rcases hr with hr | hr
  · obtain ⟨i, us, use, hi, huse, hun, rfl⟩ := mem_unassignedFrom hr
    rw [Nat.zero_add] at hclause
    subst hclause
    obtain rfl := Option.mem_unique hat' hi
    refine ⟨use, huse, rfl, rfl, ?_⟩
    intro b hb
    unfold Flow.isUnassigned at hun
    rw [hb] at hun
    exact (Bool.and_eq_true_iff.1 hun).1
  · obtain ⟨use, huse, b, hb, hcause, heq⟩ := mem_readOnlyAssignments hr
    rw [hclause, Flow.usesIn, hat', Option.getD_some] at huse
    rw [hclause] at hcause
    refine ⟨use, huse, by rw [heq], by rw [heq]; rfl, ?_⟩
    intro b' hb'
    obtain ⟨t, -, -, hresolve⟩ := mem_usesOf huse
    obtain ⟨hown, -⟩ := resolve_eq_sameClause (hresolve.symm.trans hb')
    obtain rfl : b' = b := by simpa [hb', Resolution.binding?] using hb
    rcases hcause with hmark | hnot
    · exact hmark
    · rw [hat.own_assignable hc hown] at hnot
      cases hnot

end Chain

/-- In a clause whose expression is a tree: an evaluation that comes to a marked use fails there, if it starts without
values for the clause's own names; a use of an own name that is not marked comes after a test that binds the name; and
a use of an own name is rejected, for want of a value or as an assignment, only if no evaluation gets past it. -/
theorem Query.early_use_fails {q : Query} {c : Chain} (h : q.chain = .ok c) {before rest : List Link} {l : Link}
    (hat : c.At before l rest) (htree : l.IsTree) (names : SymbolTable) :
    (∀ u use, c.useAt l before u = some use → use.beforeDeclaration = true → c.FailsAt l names u use.name) ∧
    (∀ u ∈ l.term.walk, ∀ use b, c.useAt l before u = some use → use.resolution = .sameClause b →
      use.beforeDeclaration = false →
      ∃ pre d mid post, l.term.postorder = pre ++ d :: mid ++ u :: post ∧ d.bound? = some use.name) ∧
    ∀ f, c.flow names = .ok f → f.usesIn before.length = l.term.walk.filterMap (c.useAt l before) ∧
      ∀ r, r ∈ f.unassignedFrom names 0 f.uses ∨ r ∈ c.readOnlyAssignments f names → r.clause = before.length →
        ∃ use ∈ f.usesIn before.length, r.span = use.span ∧ r.cause.subject? = some (names.spelling use.name) ∧
          ∀ b, use.resolution = .sameClause b → ∀ u, c.useAt l before u = some use →
            c.FailsAt l names u use.name := by
  have hc := Query.chain_formed h
  have hmarked : ∀ u use, c.useAt l before u = some use → use.beforeDeclaration = true →
      c.FailsAt l names u use.name := fun u use huse hmark => Chain.failsAt_of_marked hat hc htree huse hmark
  refine ⟨hmarked, ?_, ?_⟩
  · intro u hu use b huse hb hmark
    exact Chain.exists_test_of_unmarked htree hu huse hb hmark
  · intro f hflow
    have huses : f.usesIn before.length = l.term.walk.filterMap (c.useAt l before) := by
      rw [Flow.usesIn, (Chain.flow_eq_ok hflow).2, hat.usesFrom_getElem?, Option.getD_some, Chain.usesOf_eq]
    refine ⟨huses, ?_⟩
    intro r hr hclause
    obtain ⟨use, huse, hspan, hsubject, hmark⟩ := hat.rejected_use hc hflow hr hclause
    refine ⟨use, by rwa [huses, ← Chain.usesOf_eq], hspan, hsubject, ?_⟩
    intro b hb u hu
    exact hmarked u use hu (hmark b hb)

/-- A variable that is assigned too early: `from x in [7] where (i = x) == 7 && x is int i select x`. -/
def Query.early : Query where
  pool :=
    { nodes := #[⟨.literal (.int 7), ⟨0, 1⟩⟩, ⟨.row .list ⟨0, 1⟩, ⟨2, 3⟩⟩, ⟨.ident ⟨1⟩, ⟨4, 5⟩⟩,
        ⟨.assign ⟨2⟩ ⟨2⟩, ⟨6, 7⟩⟩, ⟨.literal (.int 7), ⟨8, 9⟩⟩, ⟨.operator .eq ⟨3⟩ ⟨4⟩, ⟨10, 11⟩⟩,
        ⟨.ident ⟨1⟩, ⟨12, 13⟩⟩, ⟨.test (.hasType .int) ⟨6⟩ ⟨2⟩, ⟨14, 15⟩⟩, ⟨.connective .and ⟨5⟩ ⟨7⟩, ⟨16, 17⟩⟩,
        ⟨.ident ⟨1⟩, ⟨18, 19⟩⟩]
      lists := #[⟨0⟩] }
  clauses :=
    [⟨.source, ⟨1⟩, .one ⟨1⟩, .object, ⟨0, 1⟩⟩, ⟨.filter, ⟨8⟩, .none, .bool, ⟨0, 1⟩⟩,
      ⟨.select, ⟨9⟩, .none, .object, ⟨0, 1⟩⟩]

/-- The assignment does not reach the capture of the same name. -/
theorem Query.early_unbound : ∃ c before l rest u use m', Query.early.chain = .ok c ∧ c.At before l rest ∧ l.IsTree ∧
    c.useAt l before u = some use ∧ use.beforeDeclaration = true ∧
    l.term.Touches (l.setting Query.sharedNames)
      ⟨Store.empty.insert ⟨1⟩ (.int 7), Store.empty.insert ⟨2⟩ (.int 5)⟩ u m' ∧
    c.pool.eval (l.setting Query.sharedNames) l.expr
      ⟨Store.empty.insert ⟨1⟩ (.int 7), Store.empty.insert ⟨2⟩ (.int 5)⟩ = .error (.error (.unbound "i")) := by
  obtain ⟨c, hc⟩ : ∃ c, Query.early.chain = .ok c := ⟨_, rfl⟩
  have hterm : (Query.early.chain.toOption.bind fun c => (c.links[1]?).map Link.term) =
      some (.connective ⟨⟨8⟩, ⟨16, 17⟩⟩ .and
        (.operator ⟨⟨5⟩, ⟨10, 11⟩⟩ .eq (.assign ⟨⟨3⟩, ⟨6, 7⟩⟩ ⟨2⟩ (.ident ⟨⟨2⟩, ⟨4, 5⟩⟩ ⟨1⟩))
          (.literal ⟨⟨4⟩, ⟨8, 9⟩⟩ (.int 7)))
        (.test ⟨⟨7⟩, ⟨14, 15⟩⟩ (.hasType .int) (.ident ⟨⟨6⟩, ⟨12, 13⟩⟩ ⟨1⟩) ⟨2⟩)) := by cbv
  have huse : (Query.early.chain.toOption.bind fun c => (c.links[1]?).bind fun l =>
      c.useAt l (c.links.take 1).reverse (.assign ⟨⟨3⟩, ⟨6, 7⟩⟩ ⟨2⟩ (.ident ⟨⟨2⟩, ⟨4, 5⟩⟩ ⟨1⟩))) =
      some ⟨⟨2⟩, .sameClause ⟨1⟩, ⟨6, 7⟩, true, true⟩ := by cbv
  rw [hc] at hterm huse
  simp only [Except.toOption, Option.bind_some] at hterm huse
  obtain ⟨l, hl, hterm⟩ := Option.map_eq_some_iff.1 hterm
  rw [hl, Option.bind_some] at huse
  have hat := Chain.at_take hl
  have htree : l.IsTree := by
    unfold Link.IsTree
    rw [hterm]
    decide
  have hfree : ∀ y ∈ l.term.boundNames, (Store.empty.insert ⟨1⟩ (.int 7)).get? y = none := by
    rw [hterm]
    decide
  have htouch : l.term.Touches (l.setting Query.sharedNames)
      ⟨Store.empty.insert ⟨1⟩ (.int 7), Store.empty.insert ⟨2⟩ (.int 5)⟩
      (.assign ⟨⟨3⟩, ⟨6, 7⟩⟩ ⟨2⟩ (.ident ⟨⟨2⟩, ⟨4, 5⟩⟩ ⟨1⟩))
      ⟨Store.empty.insert ⟨1⟩ (.int 7), Store.empty.insert ⟨2⟩ (.int 5)⟩ := by
    rw [hterm]
    exact .assign (.into .left (.into .operatorLeft .here)) rfl
  obtain ⟨-, -, hfails⟩ := (Query.early_use_fails hc hat htree Query.sharedNames).1 _ _ huse rfl _ _ hfree htouch
  exact ⟨c, _, l, _, _, _, _, hc, hat, htree, huse, rfl, htouch, hfails⟩

end QueryPipeline
