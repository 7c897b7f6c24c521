import Mathlib
import QueryPipeline.Proofs.Rejections

/-!
# The two policies compared

The policies differ in two rules of scope and in nothing that comes after them.  So a chain that both accept has one
pipeline, and what one of them rejects though the other accepts it breaks a rule that the other does not have
(`Query.policies_agree`):

* confinement rejects each use of a pattern variable after its clause (`Chain.lateUses`);
* uniqueness rejects a pattern variable whose name an earlier one has (`Chain.Repeats`), and a range variable whose
  name an earlier pattern variable has that still has a value (`Chain.Retakes`).
-/

namespace QueryPipeline

namespace Chain

variable {c : Chain} {f : Flow} {names : SymbolTable} {policy : ScopePolicy}

/-! ### What does not depend on the policy -/

/-- What is done with a chain once the rules of scope are checked. -/
def afterScope (c : Chain) (f : Flow) (names : SymbolTable) : Except (Failure Report) Pipeline := do
  f.requireAssigned names
  let plan ← c.plan f
  c.pipeline f plan names

private theorem lower_eq (hf : c.flow names = .ok f) (policy : ScopePolicy) :
    c.lower names policy = Report.check (c.scopeFaults f names policy) >>= fun _ => c.afterScope f names := by
  unfold lower analyze afterScope requireScope
  rw [hf, Except.bind_ok]
  simp only [bind_assoc, pure_bind]

private theorem lower_eq_of_flow_error {e : Failure Report} (hf : c.flow names = .error e) (policy : ScopePolicy) :
    c.lower names policy = .error e := by
  unfold lower analyze
  rw [hf]
  rfl

private theorem lower_isOk {p : Pipeline} (h : c.lower names policy = .ok p) :
    ∃ f, c.flow names = .ok f ∧ c.scopeFaults f names policy = [] ∧ c.afterScope f names = .ok p := by
  cases hf : c.flow names with
  | error e =>
    rw [lower_eq_of_flow_error hf] at h
    cases h
  | ok f =>
    rw [lower_eq hf] at h
    obtain ⟨_, hscope, h⟩ := Except.bind_eq_ok.1 h
    exact ⟨f, rfl, Report.check_eq_ok.1 hscope, h⟩

/-- Of a chain that one policy accepts, another accepts the same pipeline or reports what breaks its rules. -/
theorem lower_of_accepted {p : Pipeline} (hf : c.flow names = .ok f) (hp : c.afterScope f names = .ok p)
    (policy : ScopePolicy) :
    (c.scopeFaults f names policy = [] → c.lower names policy = .ok p) ∧
      (c.scopeFaults f names policy ≠ [] →
        ∃ r, c.lower names policy = .error (.error r) ∧ r.toList = c.scopeFaults f names policy) := by
  rw [lower_eq hf]
  cases hfaults : c.scopeFaults f names policy with
  | nil => exact ⟨fun _ => hp, fun hne => absurd rfl hne⟩
  | cons x xs => exact ⟨fun hnil => (by cases hnil), fun _ => ⟨⟨x, xs⟩, rfl, rfl⟩⟩

/-! ### Names in use -/

/-- An earlier pattern variable has the name of the binding, which is a range variable, and has a value in its
clause. -/
def isLent (c : Chain) (f : Flow) (clause : Nat) (b : Binding) (before : List BindingId) : Bool :=
  before.any fun id => (c.binding? id).any fun a =>
    a.name == b.name && a.isPattern && !b.isPattern && f.fact clause id == .assigned

private theorem isHeld_unique (c : Chain) (f : Flow) (k : Nat) (b : Binding) (before : List BindingId) :
    c.isHeld f .unique k b before = (c.isHeld f .disallow k b before || c.isLent f k b before) := by
  have hunique : ScopePolicy.unique.letsOut = true := rfl
  have hdisallow : ScopePolicy.disallow.letsOut = false := rfl
  unfold isHeld isLent
  induction before with
  | nil => rfl
  | cons id before ih =>
    rw [List.any_cons, List.any_cons, List.any_cons, ih]
    cases hid : c.binding? id with
    | none => simp
    | some a =>
      cases ha : a.isPattern <;>
        simp [ha, hunique, hdisallow, Bool.or_assoc, Bool.or_left_comm, Bool.and_assoc]

/-- A binding as its clause introduces it, after the bindings of the clauses before.  Its name may be one that the
clause has bound already. -/
structure Entry where
  clause : Nat
  binding : Binding
  before : List BindingId
  isTaken : Bool

/-- The bindings of one clause, where `own` are the names that the clause has bound so far. -/
def entriesIn (c : Chain) (clause : Nat) (before : List BindingId) : (own : List Symbol) → List BindingId → List Entry
  | _, [] => []
  | own, id :: rest =>
    match c.binding? id with
    | some b => ⟨clause, b, before, own.contains b.name⟩ :: c.entriesIn clause before (b.name :: own) rest
    | none => c.entriesIn clause before own rest

/-- The bindings of the clauses from place `clause` on. -/
def entriesFrom (c : Chain) : (clause : Nat) → (before : List BindingId) → List Link → List Entry
  | _, _, [] => []
  | clause, before, l :: rest =>
    c.entriesIn clause before [] l.ids ++ c.entriesFrom (clause + 1) (before ++ l.ids) rest

/-- Whether the name is in use where the binding is introduced. -/
def Entry.isInUse (c : Chain) (f : Flow) (policy : ScopePolicy) (e : Entry) : Bool :=
  e.isTaken || c.isHeld f policy e.clause e.binding e.before

/-- What is said of a binding whose name is in use. -/
def Entry.rejection (names : SymbolTable) (e : Entry) : Rejection :=
  ⟨e.clause, e.binding.span, .nameInUse (names.spelling e.binding.name)⟩

private theorem rebindingsIn_eq (c : Chain) (f : Flow) (names : SymbolTable) (policy : ScopePolicy) (k : Nat)
    (before : List BindingId) (own : List Symbol) (ids : List BindingId) :
    c.rebindingsIn f names policy k before own ids =
      ((c.entriesIn k before own ids).filter (Entry.isInUse c f policy)).map (Entry.rejection names) := by
  induction ids generalizing own with
  | nil => rfl
  | cons id ids ih =>
    rw [rebindingsIn, entriesIn]
    cases c.binding? id with
    | none => exact ih own
    | some b =>
      dsimp only
      cases hused : Entry.isInUse c f policy ⟨k, b, before, own.contains b.name⟩ with
      | true =>
        rw [List.filter_cons_of_pos hused, List.map_cons, ← ih]
        exact if_pos hused
      | false =>
        rw [List.filter_cons_of_neg (Bool.eq_false_iff.1 hused), ← ih]
        exact if_neg (Bool.eq_false_iff.1 hused)

/-- Which bindings there are does not depend on the policy, only which of them are rejected. -/
theorem rebindingsFrom_eq (c : Chain) (f : Flow) (names : SymbolTable) (policy : ScopePolicy) (k : Nat)
    (before : List BindingId) (links : List Link) :
    c.rebindingsFrom f names policy k before links =
      ((c.entriesFrom k before links).filter (Entry.isInUse c f policy)).map (Entry.rejection names) := by
  induction links generalizing k before with
  | nil => rfl
  | cons l links ih =>
    rw [rebindingsFrom, entriesFrom, List.filter_append, List.map_append, rebindingsIn_eq, ih]

private theorem mem_entriesIn {k : Nat} {before : List BindingId} {own : List Symbol} {ids : List BindingId} {e : Entry}
    (he : e ∈ c.entriesIn k before own ids) :
    e.clause = k ∧ e.before = before ∧ ∃ id ∈ ids, c.binding? id = some e.binding := by
  induction ids generalizing own with
  | nil => cases he
  | cons id ids ih =>
    rw [entriesIn] at he
    cases hb : c.binding? id with
    | none =>
      simp only [hb] at he
      obtain ⟨hk, hbefore, id', hid', hbd⟩ := ih he
      exact ⟨hk, hbefore, id', List.mem_cons_of_mem _ hid', hbd⟩
    | some b =>
      simp only [hb] at he
      rcases List.mem_cons.1 he with rfl | he
      · exact ⟨rfl, rfl, id, by simp, hb⟩
      · obtain ⟨hk, hbefore, id', hid', hbd⟩ := ih he
        exact ⟨hk, hbefore, id', List.mem_cons_of_mem _ hid', hbd⟩

private theorem mem_entriesFrom {before rest : List Link} {e : Entry} (hlinks : c.links = before.reverse ++ rest)
    (he : e ∈ c.entriesFrom before.length (before.reverse.flatMap Link.ids) rest) :
    ∃ before' l rest', c.At before' l rest' ∧ e.clause = before'.length ∧
      e.before = before'.reverse.flatMap Link.ids ∧ ∃ id ∈ l.ids, c.binding? id = some e.binding := by
  induction rest generalizing before with
  | nil => cases he
  | cons l rest ih =>
    have hat : c.At before l rest := hlinks
    rw [entriesFrom, List.mem_append] at he
    rcases he with he | he
    · obtain ⟨hk, hbefore, hid⟩ := mem_entriesIn he
      exact ⟨before, l, rest, hat, hk, hbefore, hid⟩
    · exact ih hat.links_cons (by simpa using he)

/-- The range variable `b` has the name of a pattern variable of an earlier clause that has a value in its clause. -/
def Retakes (c : Chain) (f : Flow) (b : Binding) : Prop :=
  b ∈ c.bindings.toList ∧ b.isPattern = false ∧ ∃ id a, c.binding? id = some a ∧ a.isPattern = true ∧
    a.name = b.name ∧ a.clause < b.clause ∧ f.fact b.clause id = .assigned

private theorem retakes_of_isLent (hc : c.Formed) {e : Entry} (he : e ∈ c.entriesFrom 0 [] c.links)
    (hlent : c.isLent f e.clause e.binding e.before = true) :
    c.Retakes f e.binding ∧ e.clause = e.binding.clause := by
  have hlinks : c.links = ([] : List Link).reverse ++ c.links := rfl
  obtain ⟨before, l, rest, hat, hk, hbefore, id, hid, hb⟩ := mem_entriesFrom hlinks he
  obtain ⟨b', hb', hclause, -⟩ := hat.id hc hid
  obtain rfl := Option.mem_unique hb hb'
  obtain ⟨id', hid', ha⟩ := List.any_eq_true.1 hlent
  obtain ⟨a, ha, hsame⟩ := (Option.any_eq_true _ _).1 ha
  simp only [Bool.and_eq_true, beq_iff_eq, Bool.not_eq_true'] at hsame
  obtain ⟨⟨⟨hname, hpattern⟩, hrange⟩, hfact⟩ := hsame
  rw [hbefore] at hid'
  obtain ⟨l', hl', hid'⟩ := List.mem_flatMap.1 hid'
  have hlt := hat.clause_lt hc (List.mem_reverse.1 hl') hid' ha
  have hmem : e.binding ∈ c.bindings.toList := by
    rw [binding?_eq] at hb
    exact List.mem_of_getElem? hb
  have hplace : e.clause = e.binding.clause := by rw [hk, hclause]
  rw [hplace] at hfact
  exact ⟨⟨hmem, hrange, id', a, ha, hpattern, hname, by omega, hfact⟩, hplace⟩

private theorem rebindings_nil_of_unique {k : Nat} {before : List BindingId} {links : List Link}
    (h : c.rebindingsFrom f names .unique k before links = []) :
    c.rebindingsFrom f names .disallow k before links = [] := by
  rw [rebindingsFrom_eq, List.map_eq_nil_iff, List.filter_eq_nil_iff] at h ⊢
  intro e he hused
  refine h e he ?_
  unfold Entry.isInUse at hused ⊢
  rw [isHeld_unique, ← Bool.or_assoc, hused, Bool.true_or]

private theorem mem_rebindings (hc : c.Formed) {x : Rejection}
    (h : c.rebindingsFrom f names .disallow 0 [] c.links = [])
    (hx : x ∈ c.rebindingsFrom f names .unique 0 [] c.links) :
    ∃ b, c.Retakes f b ∧ x = ⟨b.clause, b.span, .nameInUse (names.spelling b.name)⟩ := by
  rw [rebindingsFrom_eq, List.map_eq_nil_iff, List.filter_eq_nil_iff] at h
  rw [rebindingsFrom_eq, List.mem_map] at hx
  obtain ⟨e, he, rfl⟩ := hx
  obtain ⟨he, hused⟩ := List.mem_filter.1 he
  have hfree := h e he
  unfold Entry.isInUse at hused hfree
  rw [isHeld_unique, ← Bool.or_assoc, Bool.or_eq_true] at hused
  obtain ⟨hretakes, hplace⟩ := retakes_of_isLent hc he (hused.resolve_left hfree)
  refine ⟨e.binding, hretakes, ?_⟩
  rw [← hplace]
  rfl

/-! ### Names of pattern variables -/

/-- The pattern variable `b` comes in the table after the pattern variable `a` and has its name. -/
def Repeats (c : Chain) (a b : Binding) : Prop :=
  a.isPattern = true ∧ b.isPattern = true ∧ a.name = b.name ∧ [a, b].Sublist c.bindings.toList

/-- What uniqueness says of such a variable. -/
def repeatRejection (names : SymbolTable) (policy : ScopePolicy) (a b : Binding) : Rejection :=
  ⟨b.clause, b.span, .outOfScope (names.spelling b.name) policy
    s!"the name is also bound by a pattern in clause {a.clause}"⟩

private theorem mem_repeatsFrom {before bs : List Binding} {x : Rejection}
    (hx : x ∈ repeatsFrom names policy before bs) :
    ∃ a b, a.name = b.name ∧ [a, b].Sublist (before ++ bs) ∧ x = repeatRejection names policy a b := by
  induction bs generalizing before with
  | nil => cases hx
  | cons b bs ih =>
    rw [repeatsFrom] at hx
    split at hx
    · rename_i a ha
      rcases List.mem_cons.1 hx with rfl | hx
      · have hmem : [a].Sublist before := List.singleton_sublist.2 (List.mem_of_find?_eq_some ha)
        have hhead : [b].Sublist (b :: bs) := List.singleton_sublist.2 (by simp)
        exact ⟨a, b, by simpa using List.find?_some ha, hmem.append hhead, rfl⟩
      · obtain ⟨a', b', hname, hsub, rfl⟩ := ih hx
        exact ⟨a', b', hname, hsub.trans ((List.Sublist.refl before).append (List.sublist_cons_self b bs)), rfl⟩
    · obtain ⟨a', b', hname, hsub, rfl⟩ := ih hx
      exact ⟨a', b', hname, by simpa using hsub, rfl⟩

private theorem mem_repeats {x : Rejection} (hx : x ∈ c.repeats names policy) :
    ∃ a b, c.Repeats a b ∧ x = repeatRejection names policy a b := by
  obtain ⟨a, b, hname, hsub, rfl⟩ := mem_repeatsFrom hx
  have ha : a ∈ c.bindings.toList.filter Binding.isPattern := hsub.subset (by simp)
  have hb : b ∈ c.bindings.toList.filter Binding.isPattern := hsub.subset (by simp)
  exact ⟨a, b, ⟨(List.mem_filter.1 ha).2, (List.mem_filter.1 hb).2, hname, hsub.trans List.filter_sublist⟩, rfl⟩

/-! ### Uses of pattern variables after their clause -/

/-- A use of a pattern variable after its clause. -/
structure LateUse where
  clause : Nat
  span : Span
  binding : Binding

/-- What confinement says of such a use. -/
def LateUse.rejection (names : SymbolTable) (u : LateUse) : Rejection :=
  ⟨u.clause, u.span, .outOfScope (names.spelling u.binding.name) .disallow
    s!"it is introduced in clause {u.binding.clause} and used in clause {u.clause}"⟩

/-- The node `t` of a clause's expression as a late use, given the clauses before, latest first. -/
def lateUse? (c : Chain) (l : Link) (before : List Link) (t : Term) : Option LateUse :=
  match t.mention? with
  | some (x, _) =>
    match c.resolve x l before with
    | .earlier id => ((c.binding? id).filter Binding.isPattern).map fun b => ⟨before.length, t.span, b⟩
    | _ => none
  | none => none

/-- The late uses of some clauses, by clause and then in the pre-order of its expression. -/
def lateUsesFrom (c : Chain) : (before : List Link) → List Link → List LateUse
  | _, [] => []
  | before, l :: rest => l.term.preorder.filterMap (c.lateUse? l before) ++ c.lateUsesFrom (l :: before) rest

/-- The late uses of the chain. -/
def lateUses (c : Chain) : List LateUse := c.lateUsesFrom [] c.links

/-- What the rule of confinement makes of a use in a clause. -/
private def escape? (c : Chain) (names : SymbolTable) (p : Nat × Use) : Option Rejection :=
  match p.2.resolution with
  | .earlier id =>
    match c.binding? id with
    | some b =>
      if b.isPattern then
        some ⟨p.1, p.2.span, .outOfScope (names.spelling b.name) .disallow
          s!"it is introduced in clause {b.clause} and used in clause {p.1}"⟩
      else none
    | none => none
  | _ => none

private theorem escapes_in (c : Chain) (names : SymbolTable) (l : Link) (before : List Link) :
    ((c.usesOf l before).map fun u => (before.length, u)).filterMap (c.escape? names) =
      (l.term.preorder.filterMap (c.lateUse? l before)).map (LateUse.rejection names) := by
  unfold usesOf
  rw [Term.walk_eq, List.filterMap_map, List.filterMap_filterMap, List.map_filterMap]
  refine List.filterMap_congr fun t _ => ?_
  unfold lateUse?
  rcases t.mention? with _ | ⟨x, a⟩
  · rfl
  · simp only [Option.map_some, Option.bind_some, Function.comp_apply, escape?]
    rcases c.resolve x l before with b | id | _
    · rfl
    · rcases hid : c.binding? id with _ | b
      · simp [hid]
      · cases hb : b.isPattern <;> simp [hid, hb, Option.filter, LateUse.rejection]
    · rfl

private theorem escapes_from (names : SymbolTable) (huses : f.uses = c.usesFrom [] c.links) {before rest : List Link}
    (hlinks : c.links = before.reverse ++ rest) :
    ((List.range' before.length rest.length).flatMap fun k => (f.usesIn k).map fun u => (k, u)).filterMap
      (c.escape? names) = (c.lateUsesFrom before rest).map (LateUse.rejection names) := by
  induction rest generalizing before with
  | nil => rfl
  | cons l rest ih =>
    have hat : c.At before l rest := hlinks
    have huse : f.usesIn before.length = c.usesOf l before := by
      unfold Flow.usesIn
      rw [huses, hat.usesFrom_getElem?]
      rfl
    have hrest := ih hat.links_cons
    rw [List.length_cons] at hrest
    rw [List.length_cons, List.range'_succ, List.flatMap_cons, List.filterMap_append, huse, escapes_in, lateUsesFrom,
      List.map_append, hrest]

private theorem escapes_eq (huses : f.uses = c.usesFrom [] c.links) :
    c.escapes f names .disallow = c.lateUses.map (LateUse.rejection names) := by
  have hlinks : c.links = ([] : List Link).reverse ++ c.links := rfl
  have h := escapes_from names huses hlinks
  rw [List.length_nil, ← List.range_eq_range'] at h
  exact h

/-! ### What one policy accepts -/

private theorem scope_rest (h : c.scopeFaults f names policy = []) :
    c.readOnlyAssignments f names = [] ∧ c.rebindingsFrom f names policy 0 [] c.links = [] := by
  unfold scopeFaults at h
  rw [List.append_eq_nil_iff, List.append_eq_nil_iff] at h
  exact ⟨h.1.2, h.2⟩

private theorem lower_disallow_of_unique {p : Pipeline} (h : c.lower names .unique = .ok p) :
    (c.lateUses = [] → c.lower names .disallow = .ok p) ∧
      (c.lateUses ≠ [] → ∃ r, c.lower names .disallow = .error (.error r) ∧
        r.toList = c.lateUses.map (LateUse.rejection names)) := by
  obtain ⟨f, hf, hscope, hp⟩ := lower_isOk h
  obtain ⟨hread, hrebindings⟩ := scope_rest hscope
  have hfaults : c.scopeFaults f names .disallow = c.lateUses.map (LateUse.rejection names) := by
    unfold scopeFaults
    rw [hread, rebindings_nil_of_unique hrebindings, List.append_nil, List.append_nil, ← escapes_eq (flow_eq_ok hf).2]
  have hother := lower_of_accepted hf hp .disallow
  rw [hfaults, Ne, List.map_eq_nil_iff] at hother
  exact hother

private theorem lower_unique_of_disallow (hc : c.Formed) {p : Pipeline} (hflow : c.flow names = .ok f)
    (h : c.lower names .disallow = .ok p) :
    c.lower names .unique = .ok p ∨ ∃ r, c.lower names .unique = .error (.error r) ∧ ∀ x ∈ r.toList,
      (∃ a b, c.Repeats a b ∧ x = repeatRejection names .unique a b) ∨
        ∃ b, c.Retakes f b ∧ x = ⟨b.clause, b.span, .nameInUse (names.spelling b.name)⟩ := by
  obtain ⟨f', hf, hscope, hp⟩ := lower_isOk h
  obtain rfl := Except.ok.inj (hflow.symm.trans hf)
  obtain ⟨hread, hrebindings⟩ := scope_rest hscope
  obtain ⟨haccept, hreject⟩ := lower_of_accepted hf hp .unique
  by_cases hnil : c.scopeFaults f names .unique = []
  · exact Or.inl (haccept hnil)
  · obtain ⟨r, hr, hlist⟩ := hreject hnil
    refine Or.inr ⟨r, hr, fun x hx => ?_⟩
    unfold scopeFaults at hlist
    rw [hlist, hread, List.append_nil, List.mem_append] at hx
    exact hx.imp mem_repeats (mem_rebindings hc hrebindings)

/-! ### Chains without pattern variables -/

private theorem scopeFaults_of_no_patterns (hnone : ∀ b ∈ c.bindings.toList, b.isPattern = false) :
    c.scopeFaults f names .disallow = c.scopeFaults f names .unique := by
  have hbinding : ∀ id b, c.binding? id = some b → b.isPattern = false := by
    intro id b hb
    rw [binding?_eq] at hb
    exact hnone b (List.mem_of_getElem? hb)
  have hescapes : c.escapes f names .disallow = [] := by
    refine List.filterMap_eq_nil_iff.2 fun p _ => ?_
    dsimp only
    split
    · split
      · rename_i b hb
        rw [hbinding _ b hb]
        rfl
      · rfl
    · rfl
  have hrepeats : c.repeats names .unique = [] := by
    have hfilter : c.bindings.toList.filter Binding.isPattern = [] :=
      List.filter_eq_nil_iff.2 fun b hb => by simp [hnone b hb]
    unfold repeats
    rw [hfilter]
    rfl
  have hlent : ∀ k b before, c.isLent f k b before = false := by
    intro k b before
    refine List.any_eq_false.2 fun id _ hany => ?_
    obtain ⟨a, ha, hsame⟩ := (Option.any_eq_true _ _).1 hany
    rw [hbinding id a ha] at hsame
    simp at hsame
  have hrebindings : c.rebindingsFrom f names .disallow 0 [] c.links =
      c.rebindingsFrom f names .unique 0 [] c.links := by
    rw [rebindingsFrom_eq, rebindingsFrom_eq]
    refine congrArg _ (List.filter_congr fun e _ => ?_)
    unfold Entry.isInUse
    rw [isHeld_unique, hlent, Bool.or_false]
  unfold scopeFaults
  rw [hrebindings]
  simp only [hescapes, hrepeats]

private theorem lower_of_no_patterns (hnone : ∀ b ∈ c.bindings.toList, b.isPattern = false) (names : SymbolTable) :
    c.lower names .disallow = c.lower names .unique := by
  cases hf : c.flow names with
  | error e => rw [lower_eq_of_flow_error hf, lower_eq_of_flow_error hf]
  | ok f => rw [lower_eq hf, lower_eq hf, scopeFaults_of_no_patterns hnone]

end Chain

/-- The stage has no part in telling the outcomes of a filter apart. -/
structure Stage.IsPlain (s : Stage NodeId) : Prop where
  guard : ∀ e, s.body ≠ .guard e
  rejectAbsent : s.body ≠ .rejectAbsent
  unwrap : s.body ≠ .unwrap
  input : ∀ C encoding, s.input ≠ .outcome C encoding
  output : ∀ C encoding, s.output ≠ .outcome C encoding

theorem Chain.Lowers.isPlain {c : Chain} {policy : ScopePolicy} {before rest : List Link} {input : Shape}
    {stages : List (Stage NodeId)} (h : c.Lowers policy before input rest stages) (hc : c.Formed)
    (hnone : ∀ b ∈ c.bindings.toList, b.isPattern = false) (hlinks : c.links = before.reverse ++ rest)
    (hin : ∀ C encoding, input ≠ .outcome C encoding) : ∀ s ∈ stages, s.IsPlain := by
  induction h with
  | select =>
    intro s hs
    obtain rfl := List.mem_singleton.1 hs
    refine ⟨?_, ?_, ?_, hin, ?_⟩ <;> simp [Link.selection]
  | @step before rest input output l C stages more hcarrier hC hblock hrest ih =>
    have hat : c.At before l rest := hlinks
    have hpatterns : ∀ b, b ∉ l.patterns.ids := by
      intro b hb
      obtain ⟨bd, hbd, hkind, -⟩ := hat.pattern_id hc hb
      rw [Chain.binding?_eq] at hbd
      have hplain := hnone bd (List.mem_of_getElem? hbd)
      simp [Binding.isPattern, hkind] at hplain
    have hblock : (∀ s ∈ stages, s.IsPlain) ∧ ∀ C encoding, output ≠ .outcome C encoding := by
      cases hblock with
      | guard hk hsome hout | guardLast hk hsome hout =>
        obtain ⟨b, hb, -⟩ := hsome
        exact absurd hb (hpatterns b)
      | forward =>
        refine ⟨fun s hs => ?_, hin⟩
        obtain rfl := List.mem_singleton.1 hs
        refine ⟨?_, ?_, ?_, hin, hin⟩ <;> simp
      | generator | define | unpack =>
        refine ⟨fun s hs => ?_, by simp⟩
        obtain rfl := List.mem_singleton.1 hs
        refine ⟨?_, ?_, ?_, hin, ?_⟩ <;> simp
    intro s hs
    rcases List.mem_append.1 hs with hs | hs
    · exact hblock.1 s hs
    · exact ih hat.links_cons hblock.2 s hs

/-! ### What the policies agree on -/

/-- The policies never give a chain two pipelines.

Without pattern variables they give the same result, and no stage tells outcomes apart.  What uniqueness accepts,
confinement accepts unless a pattern variable is used after its clause, and then it reports just these uses.  What
confinement accepts, uniqueness accepts or rejects for names of pattern variables only. -/
theorem Query.policies_agree {q : Query} {c : Chain} (hc : q.chain = .ok c) (names : SymbolTable) :
    (c.bindsPatterns = false →
      c.lower names .disallow = c.lower names .unique ∧
        ∀ policy p, c.lower names policy = .ok p → ∀ s ∈ p.stages, s.IsPlain) ∧
    (∀ p, c.lower names .unique = .ok p →
      (c.lateUses = [] → c.lower names .disallow = .ok p) ∧
      (c.lateUses ≠ [] → ∃ r, c.lower names .disallow = .error (.error r) ∧
        r.toList = c.lateUses.map (Chain.LateUse.rejection names))) ∧
    ∀ f p, c.flow names = .ok f → c.lower names .disallow = .ok p →
      c.lower names .unique = .ok p ∨
      ∃ r, c.lower names .unique = .error (.error r) ∧ ∀ x ∈ r.toList,
        (∃ a b, c.Repeats a b ∧ x = Chain.repeatRejection names .unique a b) ∨
        ∃ b, c.Retakes f b ∧ x = ⟨b.clause, b.span, .nameInUse (names.spelling b.name)⟩ := by
  have hformed := chain_formed hc
  refine ⟨fun hpatterns => ?_, fun p hp => Chain.lower_disallow_of_unique hp,
    fun f p hflow hp => Chain.lower_unique_of_disallow hformed hflow hp⟩
  have hnone : ∀ b ∈ c.bindings.toList, b.isPattern = false := by
    unfold Chain.bindsPatterns at hpatterns
    rw [← Array.any_toList, List.any_eq_false] at hpatterns
    exact fun b hb => Bool.eq_false_iff.2 (hpatterns b hb)
  refine ⟨Chain.lower_of_no_patterns hnone names, fun policy p hp => ?_⟩
  have hlower : q.lower names policy = .ok p := Except.bind_eq_ok.2 ⟨c, hc, hp⟩
  obtain ⟨c', f, first, rest, acc⟩ := lower_eq_ok hlower
  obtain rfl : c = c' := Except.ok.inj (hc.symm.trans acc.chain)
  exact acc.stages.isPlain hformed hnone acc.links (by simp)

/-- A filter that binds a variable and two later uses of it: `from x in [7] where x is int i where i == 3 select i`. -/
def Query.lateReads : Query where
  pool :=
    { nodes := #[⟨.literal (.int 7), ⟨0, 1⟩⟩, ⟨.row .list ⟨0, 1⟩, ⟨2, 3⟩⟩, ⟨.ident ⟨1⟩, ⟨4, 5⟩⟩,
        ⟨.test (.hasType .int) ⟨2⟩ ⟨2⟩, ⟨6, 7⟩⟩, ⟨.ident ⟨2⟩, ⟨8, 9⟩⟩, ⟨.literal (.int 3), ⟨10, 11⟩⟩,
        ⟨.operator .eq ⟨4⟩ ⟨5⟩, ⟨12, 13⟩⟩, ⟨.ident ⟨2⟩, ⟨14, 15⟩⟩]
      lists := #[⟨0⟩] }
  clauses :=
    [⟨.source, ⟨1⟩, .one ⟨1⟩, .object, ⟨0, 1⟩⟩, ⟨.filter, ⟨3⟩, .none, .bool, ⟨0, 1⟩⟩,
      ⟨.filter, ⟨6⟩, .none, .bool, ⟨0, 1⟩⟩, ⟨.select, ⟨7⟩, .none, .int, ⟨0, 1⟩⟩]

theorem Query.lateReads_policies_agree : ∃ c p r, Query.lateReads.chain = .ok c ∧
    c.lower ⟨#["", "x", "i"]⟩ .unique = .ok p ∧ c.lower ⟨#["", "x", "i"]⟩ .disallow = .error (.error r) ∧
    r.toList.map (fun x => (x.clause, x.span)) = [(2, ⟨8, 9⟩), (3, ⟨14, 15⟩)] := by
  obtain ⟨c, hc⟩ : ∃ c, Query.lateReads.chain = .ok c := ⟨_, rfl⟩
  have haccepts : Query.lateReads.chain.toOption.map (fun c => (c.lower ⟨#["", "x", "i"]⟩ .unique).isOk) =
      some true := by cbv
  have huses : Query.lateReads.chain.toOption.map (fun c => c.lateUses.map fun u => (u.clause, u.span)) =
      some [(2, ⟨8, 9⟩), (3, ⟨14, 15⟩)] := by cbv
  rw [hc] at haccepts huses
  have haccepts : (c.lower ⟨#["", "x", "i"]⟩ .unique).isOk = true := Option.some.inj haccepts
  have huses : c.lateUses.map (fun u => (u.clause, u.span)) = [(2, ⟨8, 9⟩), (3, ⟨14, 15⟩)] := Option.some.inj huses
  cases hp : c.lower ⟨#["", "x", "i"]⟩ .unique with
  | error e =>
    rw [hp] at haccepts
    cases haccepts
  | ok p =>
    have hlate : c.lateUses ≠ [] := by
      intro hnil
      rw [hnil] at huses
      cases huses
    obtain ⟨r, hr, hlist⟩ := ((Query.policies_agree hc ⟨#["", "x", "i"]⟩).2.1 p hp).2 hlate
    refine ⟨c, p, r, hc, hp, hr, ?_⟩
    rw [hlist, List.map_map]
    exact huses

end QueryPipeline
