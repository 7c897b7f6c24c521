import Mathlib
import QueryPipeline.Proofs.BoundVariables
import QueryPipeline.Proofs.Coupling
import QueryPipeline.Proofs.Recast

/-!
# Shared nodes

Two pools can hold the same expressions and share nodes in different ways.  Queries whose expressions are the same trees
have chains that differ in ids only, and if both are accepted, they have the same stages and run the same way.

Whether both are accepted can depend on sharing, since the order of a use and of the test that binds its variable is
read off the ids of their nodes, and of a node that stands at several places the last one counts.  It does not if every
such node stands at one place (`Query.lower_sameTrees`).
-/

namespace QueryPipeline

open QueryPipeline.Computation (InStep Coupled)

/-- The clauses agree in all but the ids in their expressions, which are the same tree or lead nowhere. -/
structure Clause.SameTree (pool pool' : Pool) (c c' : Clause) : Prop where
  kind : c'.kind = c.kind
  binder : c'.binder = c.binder
  ty : c'.ty = c.ty
  span : c'.span = c.span
  /-- Both have an expression, or neither has. -/
  isPresent : (c'.expr.isValid && (pool'.get? c'.expr).isSome) = (c.expr.isValid && (pool.get? c.expr).isSome)
  tree : (pool'.term? c'.expr).map Term.tree = (pool.term? c.expr).map Term.tree

/-- The queries differ only in how nodes are shared and numbered. -/
def Query.SameTrees (q q' : Query) : Prop := List.Forall₂ (Clause.SameTree q.pool q'.pool) q.clauses q'.clauses

/-- The chain without ids. -/
def Chain.trees (c : Chain) : Chain := c.recast .refl (fun _ => .absent) .empty

/-! ### Chains and flows -/

private theorem Query.SameTrees.chain_eq {q q' : Query} (h : q.SameTrees q') :
    q'.chain.map Chain.trees = q.chain.map Chain.trees := by
  refine Query.chain_alike (h.imp fun c c' hc => ?_) .empty
  have hbinder : c.binder.rename .refl = c.binder := by
    cases c.binder with
    | none | one => rfl
    | many xs => exact congrArg Binder.many (List.map_id xs)
  exact ⟨hc.kind, by rw [hbinder, hc.binder], hc.ty, hc.span, hc.isPresent, rfl, hc.tree⟩

/-- The flow without the marks of uses that come before their test. -/
def Flow.unmarked (f : Flow) : Flow := ⟨f.facts, f.uses.map (List.map Use.unmarked)⟩

/-- The pipeline without ids. -/
def Pipeline.unnumbered (p : Pipeline) : Pipeline := p.recast .refl (fun _ => .absent) .empty

namespace Chain

variable {c c' : Chain} {names : SymbolTable} {policy : ScopePolicy}

private theorem ambiguities_trees (c : Chain) (names : SymbolTable) : c.trees.ambiguities names = c.ambiguities names :=
  ambiguities_recast _ _ c (.refl names)

private theorem facts_trees (c : Chain) : c.trees.facts = c.facts := c.facts_recast .refl _ _

private theorem flow_unmarked (h : c'.trees = c.trees) (names : SymbolTable) :
    (c'.flow names).map Flow.unmarked = (c.flow names).map Flow.unmarked := by
  have hvia : ∀ c : Chain, (c.trees.flow names).map Flow.unmarked = (c.flow names).map Flow.unmarked := by
    intro c
    have huses : (c.trees.usesFrom [] c.trees.links).map (List.map Use.unmarked) =
        (c.usesFrom [] c.links).map (List.map Use.unmarked) := c.uses_unmarked .refl _ _
    unfold flow
    rw [ambiguities_trees, facts_trees]
    cases Report.check (c.ambiguities names) with
    | error e => rfl
    | ok u => exact congrArg (fun us => Except.ok (Flow.mk c.facts us)) huses
  rw [← hvia c', h, hvia]

/-! ### Pipelines of accepted chains -/

private theorem plan_unmarked (c : Chain) (f : Flow) : c.plan f.unmarked = c.plan f := by
  have hreads : f.unmarked.readSets = f.readSets := by
    simp [Flow.readSets, Flow.unmarked, readsOf, List.filterMap_map, Function.comp_def, Use.unmarked]
  rw [plan, plan, hreads]

private theorem pipeline_unmarked (c : Chain) (f : Flow) (plan : Plan) (names : SymbolTable) :
    c.pipeline f.unmarked plan names = c.pipeline f plan names := by
  have hreads : ∀ k, f.unmarked.reads k = f.reads k := by
    intro k
    simp only [Flow.reads, Flow.usesIn, Flow.unmarked, List.getElem?_map]
    cases f.uses[k]? with
    | none => rfl
    | some us => simp [readsOf, List.filterMap_map, Function.comp_def, Use.unmarked]
  have hstages : ∀ clause input links, c.stagesFrom f.unmarked plan names clause input links =
      c.stagesFrom f plan names clause input links := by
    intro clause input links
    induction links generalizing clause input with
    | nil => rfl
    | cons l links ih =>
      cases links with
      | nil => simp only [stagesFrom, hreads]
      | cons l' links => simp only [stagesFrom_two, hreads, ih]
  simp only [pipeline, hstages]

/-- What an accepted chain plans and gives is planned and given by its trees, whatever uses are marked. -/
private theorem pipeline_trees {p : Pipeline} (hp : c.lower names policy = .ok p) :
    ∃ f plan, (c.flow names).map Flow.unmarked = .ok f ∧ c.trees.plan f = .ok plan ∧
      c.trees.pipeline f plan names = .ok p.unnumbered := by
  obtain ⟨⟨f, plan⟩, hanalyze, hpipeline⟩ := Except.bind_eq_ok.1 hp
  have hpipeline : c.pipeline f plan names = .ok p := hpipeline
  obtain ⟨hflow, -, -, hplan⟩ := Chain.analyze_eq_ok.1 hanalyze
  refine ⟨f.unmarked, plan.recast .refl fun _ => .absent, by rw [hflow]; rfl, ?_, ?_⟩
  · have hrecast := c.plan_recast .refl (fun _ => .absent) .empty f.unmarked
    rw [plan_unmarked, hplan, Flow.rename_refl] at hrecast
    exact hrecast
  · have hrecast := pipeline_recast (fun _ => .absent) .empty c (.refl names) f.unmarked plan
    rw [pipeline_unmarked, hpipeline, Flow.rename_refl] at hrecast
    exact hrecast

/-- Accepted chains that are the same trees have pipelines that differ in ids only. -/
theorem lower_unnumbered (h : c'.trees = c.trees) {p p' : Pipeline} (hp : c.lower names policy = .ok p)
    (hp' : c'.lower names policy = .ok p') : p'.unnumbered = p.unnumbered := by
  obtain ⟨f, plan, hflow, hplan, hpipeline⟩ := pipeline_trees hp
  obtain ⟨f', plan', hflow', hplan', hpipeline'⟩ := pipeline_trees hp'
  rw [flow_unmarked h, hflow] at hflow'
  obtain rfl := Except.ok.inj hflow'
  rw [h, hplan] at hplan'
  obtain rfl := Except.ok.inj hplan'
  rw [h, hpipeline] at hpipeline'
  exact (Except.ok.inj hpipeline').symm

/-- If the chains also mark the same uses, the same is reported. -/
theorem lower_map_unnumbered (h : c'.trees = c.trees) (hflow : c'.flow names = c.flow names) :
    (c'.lower names policy).map Pipeline.unnumbered = (c.lower names policy).map Pipeline.unnumbered := by
  have hvia : ∀ c : Chain, (c.lower names policy).map Pipeline.unnumbered =
      c.flow names >>= fun f => c.trees.lowerWith f names policy := by
    intro c
    rw [lower_eq_lowerWith]
    cases c.flow names with
    | error e => rfl
    | ok f =>
      have hrecast := lowerWith_recast (fun _ => .absent) .empty c (.refl names) f policy
      rw [Flow.rename_refl] at hrecast
      exact hrecast.symm
  rw [hvia, hvia, h, hflow]

end Chain

/-! ### The order of nodes -/

namespace Term

variable {t t' : Term}

private theorem map_tree_of_eq {f : Term → List Term} (hf : ∀ t, f t.tree = (f t).map tree) (h : t.tree = t'.tree) :
    (f t).map tree = (f t').map tree := by
  rw [← hf, h, hf]

private theorem preorder_tree (t : Term) : t.tree.preorder = t.preorder.map tree := by
  rw [← walk_eq, ← walk_eq, walk_tree]

private theorem postorder_tree (t : Term) : t.tree.postorder = t.postorder.map tree := by
  rw [← settled_eq, ← settled_eq, settled_tree]

private theorem length_eq_of_trees {ts ts' : List Term} (h : ts.map tree = ts'.map tree) : ts.length = ts'.length := by
  have hlength := congrArg List.length h
  rwa [List.length_map, List.length_map] at hlength

private theorem zips_perm {ts ts' : List Term} (h : ts.map tree = ts'.map tree)
    (ih : ∀ t ∈ ts, ∀ t' : Term, t.tree = t'.tree →
      (t.preorder.zip t'.preorder).Perm (t.postorder.zip t'.postorder)) :
    ((preorders ts).zip (preorders ts')).Perm ((postorders ts).zip (postorders ts')) ∧
      (postorders ts).length = (postorders ts').length := by
  induction ts generalizing ts' with
  | nil =>
    cases ts' with
    | nil => exact ⟨.refl _, rfl⟩
    | cons t' ts' => cases h
  | cons t ts ihts =>
    cases ts' with
    | nil => cases h
    | cons t' ts' =>
      obtain ⟨htree, htrees⟩ := List.cons.inj h
      obtain ⟨hrest, hlength⟩ := ihts htrees fun u hu => ih u (by simp [hu])
      have hpre := length_eq_of_trees (map_tree_of_eq preorder_tree htree)
      have hpost := length_eq_of_trees (map_tree_of_eq postorder_tree htree)
      rw [preorders, preorders, postorders, postorders, List.zip_append hpre, List.zip_append hpost,
        List.length_append, List.length_append, hpost, hlength]
      exact ⟨(ih t (by simp) t' htree).append hrest, rfl⟩

/-- Nodes at corresponding places of a walk are at corresponding places in the order of evaluation. -/
theorem zip_perm (h : t.tree = t'.tree) : (t.walk.zip t'.walk).Perm (t.settled.zip t'.settled) := by
  rw [walk_eq, walk_eq, settled_eq, settled_eq]
  induction t using operandInduction generalizing t' with
  | step t ih =>
    have hoperands := map_tree_of_eq operands_tree h
    obtain ⟨hperm, hlength⟩ := zips_perm hoperands fun u hu u' hu' => ih u hu hu'
    rw [preorder_eq, preorder_eq, postorder_eq, postorder_eq, List.zip_cons_cons, List.zip_append hlength]
    exact (hperm.cons (t, t')).trans (List.perm_append_singleton _ _).symm

theorem walk_perm_settled (t : Term) : t.walk.Perm t.settled := by
  have hperm := (zip_perm (rfl : t.tree = t.tree)).map Prod.fst
  rwa [List.map_fst_zip le_rfl, List.map_fst_zip le_rfl] at hperm

end Term

theorem settledAt_of_count {order : List Term} {u : Term} {i : Nat} (hi : order[i]? = some u)
    (hone : (order.map Term.id).count u.id = 1) : settledAt order u.id = i := by
  obtain ⟨hlt, hu⟩ := List.getElem?_eq_some_iff.1 hi
  have hsplit : order = order.take i ++ u :: order.drop (i + 1) := by
    rw [← hu, List.getElem_cons_drop, List.take_append_drop]
  have hlength : (order.take i).length = i := List.length_take_of_le (Nat.le_of_lt hlt)
  generalize order.take i = pre at hsplit hlength
  generalize order.drop (i + 1) = post at hsplit
  subst hsplit
  -- no later node has the id
  have hpost : u.id ∉ (post.map Term.id).reverse := by
    rw [List.map_append, List.count_append, List.map_cons, List.count_cons_self] at hone
    have hzero : (post.map Term.id).count u.id = 0 := by omega
    rw [List.mem_reverse]
    exact List.count_eq_zero.1 hzero
  have hindex : ((pre ++ u :: post).reverse.map Term.id).idxOf u.id = post.length := by
    rw [List.reverse_append, List.reverse_cons, List.append_assoc, List.map_append, List.map_reverse,
      List.idxOf_append_of_notMem hpost]
    simp
  rw [settledAt, hindex]
  simp only [List.length_append, List.length_cons]
  omega

/-- The names that the term reads or assigns. -/
def Term.mentioned (t : Term) : List Symbol := t.walk.filterMap fun u => u.mention?.map Prod.fst

/-- Whether the order of evaluation matters for a node of the term: it binds a name that is mentioned, or mentions one
that is bound. -/
def Term.isOrdered (t u : Term) : Bool :=
  u.bound?.any t.mentioned.contains || u.mention?.any fun m => t.boundNames.contains m.1

/-- Each node for which the order of evaluation matters stands at one place of the term. -/
def Term.OrderedApart (t : Term) : Prop :=
  ∀ u ∈ t.walk, t.isOrdered u = true → (t.walk.map Term.id).count u.id = 1

instance : DecidablePred Term.OrderedApart := fun t =>
  inferInstanceAs (Decidable (∀ u ∈ t.walk, t.isOrdered u = true → (t.walk.map Term.id).count u.id = 1))

section Marks

variable {t t' u u' : Term}

private theorem tree_of_mem_zip {ts ts' : List Term} (h : ts.map Term.tree = ts'.map Term.tree)
    (hu : (u, u') ∈ ts.zip ts') : u.tree = u'.tree := by
  obtain ⟨i, hi⟩ := List.getElem?_of_mem hu
  obtain ⟨hu, hu'⟩ := List.getElem?_zip_eq_some.1 hi
  have htrees := congrArg (fun l => l[i]?) h
  simp only [List.getElem?_map, hu, hu', Option.map_some] at htrees
  exact Option.some.inj htrees

private theorem Term.mentioned_tree (t : Term) : t.tree.mentioned = t.mentioned := by
  simp only [Term.mentioned, Term.walk_tree, List.filterMap_map, Function.comp_def, Term.mention?_tree]

private theorem isOrdered_eq (h : t.tree = t'.tree) (hu : u.tree = u'.tree) : t.isOrdered u = t'.isOrdered u' := by
  rw [Term.isOrdered, Term.isOrdered, ← u.bound?_tree, ← u.mention?_tree, ← t.boundNames_tree, ← t.mentioned_tree, h,
    hu, u'.bound?_tree, u'.mention?_tree, t'.boundNames_tree, t'.mentioned_tree]

/-- A node that stands at one place gets its value when that place is reached. -/
private theorem settledAt_eq_place (ht : t.OrderedApart) {i : Nat} (hi : t.settled[i]? = some u)
    (hordered : t.isOrdered u = true) : settledAt t.settled u.id = i := by
  have hperm := t.walk_perm_settled
  refine settledAt_of_count hi ?_
  rw [← (hperm.map Term.id).count_eq]
  exact ht u (hperm.mem_iff.2 (List.mem_of_getElem? hi)) hordered

/-- Nodes at corresponding places get their values at the same time. -/
private theorem settledAt_eq (h : t.tree = t'.tree) (ht : t.OrderedApart) (ht' : t'.OrderedApart)
    (hu : (u, u') ∈ t.settled.zip t'.settled) (hordered : t.isOrdered u = true) :
    settledAt t.settled u.id = settledAt t'.settled u'.id := by
  have htree := tree_of_mem_zip (Term.map_tree_of_eq Term.settled_tree h) hu
  obtain ⟨i, hi⟩ := List.getElem?_of_mem hu
  obtain ⟨hu, hu'⟩ := List.getElem?_zip_eq_some.1 hi
  rw [settledAt_eq_place ht hu hordered, settledAt_eq_place ht' hu' (isOrdered_eq h htree ▸ hordered)]

/-- The first test of a name that is mentioned is made at the same time. -/
private theorem declaredAt?_eq (h : t.tree = t'.tree) (ht : t.OrderedApart) (ht' : t'.OrderedApart) {x : Symbol}
    (hx : x ∈ t.mentioned) : declaredAt? t.settled x = declaredAt? t'.settled x := by
  have htrees := Term.map_tree_of_eq Term.settled_tree h
  have hlength := Term.length_eq_of_trees htrees
  -- both lists of tests come from the list of pairs of nodes
  have hleft : t.settled = (t.settled.zip t'.settled).map Prod.fst := (List.map_fst_zip hlength.le).symm
  have hright : t'.settled = (t.settled.zip t'.settled).map Prod.snd := (List.map_snd_zip hlength.ge).symm
  have hbound : ∀ w ∈ t.settled.zip t'.settled, decide (w.1.bound? = some x) = decide (w.2.bound? = some x) := by
    rintro ⟨u, u'⟩ hu
    rw [← u.bound?_tree, tree_of_mem_zip htrees hu, u'.bound?_tree]
  have htimes : (t.settled.filter fun u => u.bound? = some x).map (fun u => settledAt t.settled u.id) =
      (t'.settled.filter fun u => u.bound? = some x).map fun u => settledAt t'.settled u.id := by
    conv_lhs => enter [2]; rw [hleft]
    conv_rhs => enter [2]; rw [hright]
    rw [List.filter_map, List.filter_map, List.map_map, List.map_map]
    simp only [Function.comp_def]
    rw [List.filter_congr hbound]
    refine List.map_congr_left fun w hw => ?_
    obtain ⟨hw, hboundw⟩ := List.mem_filter.1 hw
    obtain ⟨u, u'⟩ := w
    have hboundu : u.bound? = some x := of_decide_eq_true ((hbound _ hw).trans hboundw)
    refine settledAt_eq h ht ht' hw ?_
    rw [Term.isOrdered, hboundu]
    simp [hx]
  rw [declaredAt?, declaredAt?, htimes]

private theorem declaredAt?_eq_none {x : Symbol} (hx : x ∉ t.boundNames) : declaredAt? t.settled x = none := by
  have hnone : (t.settled.filter fun u => u.bound? = some x) = [] := by
    rw [List.filter_eq_nil_iff]
    intro u hu hbound
    have hwalk : u ∈ t.walk := t.walk_perm_settled.mem_iff.2 hu
    exact hx (List.mem_filterMap.2 ⟨u, hwalk, of_decide_eq_true hbound⟩)
  rw [declaredAt?, hnone]
  rfl

/-- Corresponding uses come before the test of their variable, or do not, in both. -/
private theorem isBeforeTest_eq {l l' : Link} (h : l.term.tree = l'.term.tree) (hl : l.term.OrderedApart)
    (hl' : l'.term.OrderedApart) (hu : (u, u') ∈ l.term.walk.zip l'.term.walk) {x : Symbol} {a : Bool}
    (hm : u.mention? = some (x, a)) : l.isBeforeTest u x = l'.isBeforeTest u' x := by
  have hmentioned : x ∈ l.term.mentioned := by
    have hwalk : u ∈ l.term.walk := (List.of_mem_zip hu).1
    exact List.mem_filterMap.2 ⟨u, hwalk, by rw [hm]; rfl⟩
  by_cases hx : x ∈ l.term.boundNames
  · have hordered : l.term.isOrdered u = true := by
      rw [Term.isOrdered, hm]
      simp [hx]
    rw [Link.isBeforeTest, Link.isBeforeTest, declaredAt?_eq h hl hl' hmentioned,
      settledAt_eq h hl hl' ((Term.zip_perm h).mem_iff.1 hu) hordered]
  · have hx' : x ∉ l'.term.boundNames := by rwa [← l'.term.boundNames_tree, ← h, l.term.boundNames_tree]
    rw [Link.isBeforeTest, Link.isBeforeTest, declaredAt?_eq_none hx, declaredAt?_eq_none hx']
    rfl

end Marks

/-! ### The same flow -/

/-- The clause without the ids in its expression. -/
def Link.tree (l : Link) : Link := l.recast .refl fun _ => .absent

namespace Chain

variable {c c' : Chain} {names : SymbolTable}

private theorem resolve_eq (h : c'.trees = c.trees) {l l' : Link} {before before' : List Link} (hl : l'.tree = l.tree)
    (hbefore : before'.map Link.tree = before.map Link.tree) (x : Symbol) :
    c'.resolve x l' before' = c.resolve x l before := by
  have hvia : ∀ (c : Chain) (l : Link) (before : List Link),
      c.trees.resolve x l.tree (before.map Link.tree) = c.resolve x l before :=
    fun c l before => c.resolve_recast .refl _ _ x l before
  rw [← hvia c', h, hl, hbefore, hvia]

private theorem usesOf_trees (h : c'.trees = c.trees) {l l' : Link} {before before' : List Link} (hl : l'.tree = l.tree)
    (hbefore : before'.map Link.tree = before.map Link.tree) (hapart : l.term.OrderedApart)
    (hapart' : l'.term.OrderedApart) : c'.usesOf l' before' = c.usesOf l before := by
  have htree : l.term.tree = l'.term.tree := congrArg Link.term hl.symm
  have htrees := Term.map_tree_of_eq Term.walk_tree htree
  have hlength := Term.length_eq_of_trees htrees
  have huse : ∀ w ∈ l.term.walk.zip l'.term.walk, c'.useAt l' before' w.2 = c.useAt l before w.1 := by
    rintro ⟨u, u'⟩ hu
    have htreeu : u.tree = u'.tree := tree_of_mem_zip htrees hu
    have hmention : u'.mention? = u.mention? := by rw [← u'.mention?_tree, ← htreeu, u.mention?_tree]
    have hspan : u'.span = u.span := by rw [← u'.span_tree, ← htreeu, u.span_tree]
    unfold useAt
    rw [hmention]
    cases hm : u.mention? with
    | none => rfl
    | some m =>
      have hbeforeTest : l'.isBeforeTest u' m.1 = l.isBeforeTest u m.1 :=
        (isBeforeTest_eq htree hapart hapart' hu hm).symm
      simp only [Option.map_some, resolve_eq h hl hbefore, hspan, hbeforeTest]
  calc c'.usesOf l' before'
      = ((l.term.walk.zip l'.term.walk).map Prod.snd).filterMap (c'.useAt l' before') := by
        rw [usesOf_eq, List.map_snd_zip hlength.ge]
    _ = ((l.term.walk.zip l'.term.walk).map Prod.fst).filterMap (c.useAt l before) := by
        rw [List.filterMap_map, List.filterMap_map]
        exact List.filterMap_congr huse
    _ = c.usesOf l before := by rw [usesOf_eq, List.map_fst_zip hlength.le]

private theorem usesFrom_trees (h : c'.trees = c.trees) {before before' links links' : List Link}
    (hbefore : before'.map Link.tree = before.map Link.tree) (hlinks : links'.map Link.tree = links.map Link.tree)
    (hapart : ∀ l ∈ links, l.term.OrderedApart) (hapart' : ∀ l ∈ links', l.term.OrderedApart) :
    c'.usesFrom before' links' = c.usesFrom before links := by
  induction links generalizing before before' links' with
  | nil =>
    obtain rfl := List.map_eq_nil_iff.1 hlinks
    rfl
  | cons l links ih =>
    cases links' with
    | nil => cases hlinks
    | cons l' links' =>
      obtain ⟨hl, hlinks⟩ := List.cons.inj hlinks
      have hnext : (l' :: before').map Link.tree = (l :: before).map Link.tree := by
        rw [List.map_cons, List.map_cons, hl, hbefore]
      have hrest := ih hnext hlinks (fun k hk => hapart k (by simp [hk])) fun k hk => hapart' k (by simp [hk])
      rw [usesFrom, usesFrom, usesOf_trees h hl hbefore (hapart l (by simp)) (hapart' l' (by simp)), hrest]

/-- If no node for which the order of evaluation matters is shared within a clause, the flows are the same. -/
theorem flow_trees (h : c'.trees = c.trees) (hapart : ∀ l ∈ c.links, l.term.OrderedApart)
    (hapart' : ∀ l ∈ c'.links, l.term.OrderedApart) (names : SymbolTable) : c'.flow names = c.flow names := by
  have hlinks : c'.links.map Link.tree = c.links.map Link.tree := congrArg Chain.links h
  unfold flow
  rw [← ambiguities_trees c', ← facts_trees c', h, ambiguities_trees, facts_trees,
    usesFrom_trees h rfl hlinks hapart hapart']

end Chain

/-! ### The same runs -/

/-- The ids stand for the same tree, which has no holes. -/
def Pool.SameTree (p p' : Pool) (i i' : NodeId) : Prop :=
  ∃ t t', p.term? i = some t ∧ p'.term? i' = some t' ∧ t'.tree = t.tree

/-- The pipelines differ only in the ids of expressions, which stand for the same trees. -/
structure Pipeline.SameTrees (p p' : Pipeline) : Prop where
  source : p.pool.SameTree p'.pool p.source p'.source
  sourceCarrier : p'.sourceCarrier = p.sourceCarrier
  stages : List.Forall₂ (fun s s' => s'.clause = s.clause ∧ s.Alike .refl (p.pool.SameTree p'.pool) s') p.stages
    p'.stages

section Runs

variable {p p' : Pool} {names : SymbolTable}

private theorem inStep_same {σ α : Type} (x : Computation σ α) : InStep (fun s t => t = s) x x := by
  rintro _ s rfl
  cases x s with
  | ok r => exact .ok rfl
  | error e => exact .error e

private theorem evalWith_sameTree {e e' : NodeId} (h : p.SameTree p' e e') (g : Setting) (locals : Store) :
    Coupled (fun a b => b.1 = a.1 ∧ b.2 = a.2) (fun s t => t = s) (p.evalWith g e locals)
      (p'.evalWith g e' locals) := by
  obtain ⟨t, t', ht, ht', htree⟩ := h
  have heval : p'.eval g e' = p.eval g e := by
    rw [Pool.eval_of_term ht', Pool.eval_of_term ht, ← t'.eval_tree, htree, t.eval_tree]
  have hstep : InStep (fun m m' => m' = m) (p.eval g e) (p'.eval g e') := by
    rw [heval]
    exact inStep_same _
  refine Pool.evalWith_coupled (fun a b => b = a) hstep ?_ ?_
  · rintro _ s rfl
    rfl
  · rintro _ m rfl
    exact ⟨rfl, rfl⟩

private theorem evalCoupled_sameTree (g : Setting) :
    p.EvalCoupled .refl (p.SameTree p') (fun _ => True) (fun s t => t = s) g p' g := by
  intro e e' locals he _
  rw [Store.rename_refl]
  refine (evalWith_sameTree he g locals).mono fun a b hab => ⟨hab.1, ?_, trivial⟩
  rw [Store.rename_refl, hab.2]

private theorem Body.Alike.declared?_eq {b b' : Body NodeId} (h : b.Alike (p.SameTree p') b') :
    b'.declared? p' = b.declared? p := by
  have hterm : ∀ {e e' : NodeId}, p.SameTree p' e e' →
      (p'.term? e').map (fun t => t.walk.filterMap Term.bound?) =
        (p.term? e).map fun t => t.walk.filterMap Term.bound? := by
    rintro e e' ⟨t, t', ht, ht', htree⟩
    have hnames : t'.boundNames = t.boundNames := by rw [← t'.boundNames_tree, htree, t.boundNames_tree]
    rw [ht, ht']
    exact congrArg some hnames
  cases h with
  | rejectAbsent | unwrap => rfl
  | extend hbs =>
    cases hbs with
    | nil => rfl
    | cons hb _ => exact hterm hb.2
  | destructure he | generate he | predicate he | guard he | project he => exact hterm he

private theorem step_sameTree {s s' : Stage NodeId} (h : s.Alike .refl (p.SameTree p') s') (index : Nat) (v : Value) :
    InStep (fun s t => t = s) (s.step p names index v) (s'.step p' names index v) := by
  rw [Stage.step, Stage.step, h.body.declared?_eq]
  cases s.body.declared? p with
  | none => exact .throw _
  | some declared =>
    exact h.stepWith_inStep (.refl names) (evalCoupled_sameTree _) (fun _ _ _ _ _ => trivial) (fun _ _ => trivial) index

end Runs

/-- Pipelines of the same trees run the same way. -/
theorem Pipeline.SameTrees.runWith_eq {p p' : Pipeline} (h : p.SameTrees p') (names : SymbolTable) (captures : Store) :
    p'.runWith names captures = p.runWith names captures := by
  have hsource := (evalWith_sameTree h.source ⟨names, []⟩ .empty).mono fun a b hab => hab.1
  have hruns := Pipeline.runWith_agree hsource (fun s s' hs => step_sameTree hs.2) h.stages (rfl : captures = captures)
  generalize p.runWith names captures = run at hruns
  generalize p'.runWith names captures = run' at hruns
  cases hruns with
  | ok hs => rw [hs]
  | error e => rfl

/-! ### Stages of accepted queries -/

private theorem forall₂_of_map_eq {α β γ : Type} {f : α → γ} {g : β → γ} {R : α → β → Prop} {xs : List α} {ys : List β}
    (h : ys.map g = xs.map f) (hR : ∀ x ∈ xs, ∀ y ∈ ys, g y = f x → R x y) : List.Forall₂ R xs ys := by
  induction xs generalizing ys with
  | nil =>
    obtain rfl := List.map_eq_nil_iff.1 h
    exact .nil
  | cons x xs ih =>
    cases ys with
    | nil => cases h
    | cons y ys =>
      obtain ⟨hxy, h⟩ := List.cons.inj h
      refine .cons (hR x (by simp) y (by simp) hxy) (ih h fun x hx y hy => ?_)
      exact hR x (by simp [hx]) y (by simp [hy])

private theorem Body.alike_of_map_eq {ε δ γ : Type} {E : ε → δ → Prop} {f : ε → γ} {f' : δ → γ} {b : Body ε}
    {b' : Body δ} (h : b'.map f' = b.map f) (hE : ∀ e ∈ b.exprs, ∀ e' ∈ b'.exprs, f' e' = f e → E e e') :
    b.Alike E b' := by
  cases b with
  | extend bs =>
    cases b' with
    | extend bs' =>
      have hpairs : bs'.map (fun q => (q.1, f' q.2)) = bs.map fun q => (q.1, f q.2) := Body.extend.inj h
      refine .extend (forall₂_of_map_eq hpairs fun q hq q' hq' heq => ?_)
      obtain ⟨hid, he⟩ := Prod.mk.inj heq
      exact ⟨hid, hE q.2 (List.mem_map_of_mem hq) q'.2 (List.mem_map_of_mem hq') he⟩
    | _ => cases h
  | destructure e parts =>
    cases b' with
    | destructure e' parts' =>
      obtain ⟨he, rfl⟩ := Body.destructure.inj h
      exact .destructure (hE e (by simp [Body.exprs]) e' (by simp [Body.exprs]) he)
    | _ => cases h
  | generate e id =>
    cases b' with
    | generate e' id' =>
      obtain ⟨he, rfl⟩ := Body.generate.inj h
      exact .generate (hE e (by simp [Body.exprs]) e' (by simp [Body.exprs]) he)
    | _ => cases h
  | predicate e =>
    cases b' with
    | predicate e' => exact .predicate (hE e (by simp [Body.exprs]) e' (by simp [Body.exprs]) (Body.predicate.inj h))
    | _ => cases h
  | guard e =>
    cases b' with
    | guard e' => exact .guard (hE e (by simp [Body.exprs]) e' (by simp [Body.exprs]) (Body.guard.inj h))
    | _ => cases h
  | rejectAbsent =>
    cases b' with
    | rejectAbsent => exact .rejectAbsent
    | _ => cases h
  | unwrap =>
    cases b' with
    | unwrap => exact .unwrap
    | _ => cases h
  | project e =>
    cases b' with
    | project e' => exact .project (hE e (by simp [Body.exprs]) e' (by simp [Body.exprs]) (Body.project.inj h))
    | _ => cases h

namespace Query.Accepted

variable {q q' : Query} {names : SymbolTable} {policy : ScopePolicy} {c c' : Chain} {f f' : Flow} {first first' : Link}
variable {rest rest' : List Link} {p p' : Pipeline}

/-- The expressions of a stage are that of its clause. -/
private theorem stage_term (h : q.Accepted names policy c f first rest p) {s : Stage NodeId} (hs : s ∈ p.stages)
    {e : NodeId} (he : e ∈ s.body.exprs) : ∃ l, c.links[s.clause]? = some l ∧ p.pool.term? e = some l.term := by
  obtain ⟨before, l, rest', C, hat, -, -, hof⟩ := h.stages.stageOf (by rw [h.links]; rfl) (by simp) hs
  refine ⟨l, by rw [hof.clause, hat.getElem?], ?_⟩
  rcases hof.exprs with ⟨-, -, hexprs⟩ | ⟨-, hexprs⟩
  · rw [hexprs e he, h.term hat]
  · rw [hexprs] at he
    cases he

private theorem sameTrees (h : q.Accepted names policy c f first rest p)
    (h' : q'.Accepted names policy c' f' first' rest' p') (htrees : c'.trees = c.trees)
    (hunnumbered : p'.unnumbered = p.unnumbered) : p.SameTrees p' := by
  have hlinks : c'.links.map Link.tree = c.links.map Link.tree := congrArg Chain.links htrees
  have hterm : ∀ {k : Nat} {l l' : Link}, c.links[k]? = some l → c'.links[k]? = some l' →
      l'.term.tree = l.term.tree := by
    intro k l l' hl hl'
    have hk := congrArg (fun ls => ls[k]?) hlinks
    simp only [List.getElem?_map, hl, hl', Option.map_some] at hk
    exact congrArg Link.term (Option.some.inj hk)
  have hfirst : c.links[0]? = some first := by rw [h.links]; rfl
  have hfirst' : c'.links[0]? = some first' := by rw [h'.links]; rfl
  refine ⟨⟨first.term, first'.term, ?_, ?_, hterm hfirst hfirst'⟩, ?_, ?_⟩
  · have hat : c.At [] first rest := h.links
    rw [h.source, h.term hat]
  · have hat : c'.At [] first' rest' := h'.links
    rw [h'.source, h'.term hat]
  · have hcarrier := congrArg Pipeline.sourceCarrier hunnumbered
    simpa [Pipeline.unnumbered, Pipeline.recast] using hcarrier
  · have hstages : p'.stages.map (Stage.recast .refl fun _ => .absent) =
        p.stages.map (Stage.recast .refl fun _ => .absent) :=
      congrArg Pipeline.stages hunnumbered
    refine forall₂_of_map_eq hstages fun s hs s' hs' heq => ?_
    obtain ⟨hkind, hinput, houtput, hbody, hclause⟩ := Stage.mk.inj heq
    refine ⟨hclause, hkind, ?_, ?_, Body.alike_of_map_eq hbody fun e he e' he' _ => ?_⟩
    · rwa [Shape.rename_refl] at hinput
    · rwa [Shape.rename_refl] at houtput
    · obtain ⟨l, hl, hterme⟩ := h.stage_term hs he
      obtain ⟨l', hl', hterme'⟩ := h'.stage_term hs' he'
      rw [hclause] at hl'
      exact ⟨l.term, l'.term, hterme, hterme', hterm hl hl'⟩

end Query.Accepted

/-- Queries whose expressions are the same trees have chains that differ in ids only, and flows that differ only in
which uses come before the test of their variable.  If no node for which the order of evaluation matters is shared
within a clause, they are rejected for the same reasons or both accepted.  If both are accepted, their pipelines are the
same trees and run the same way. -/
theorem Query.lower_sameTrees {q q' : Query} (h : q.SameTrees q') (names : SymbolTable) (policy : ScopePolicy) :
    q'.chain.map Chain.trees = q.chain.map Chain.trees ∧
    (∀ c c', q.chain = .ok c → q'.chain = .ok c' →
      (c'.flow names).map Flow.unmarked = (c.flow names).map Flow.unmarked ∧
      ((∀ l ∈ c.links, l.term.OrderedApart) → (∀ l ∈ c'.links, l.term.OrderedApart) →
        (q'.lower names policy).map Pipeline.unnumbered = (q.lower names policy).map Pipeline.unnumbered)) ∧
    ∀ p p', q.lower names policy = .ok p → q'.lower names policy = .ok p' →
      p.SameTrees p' ∧ ∀ captures, p'.runWith names captures = p.runWith names captures := by
  have hchain := h.chain_eq
  have htrees : ∀ {c c' : Chain}, q.chain = .ok c → q'.chain = .ok c' → c'.trees = c.trees := by
    intro c c' hc hc'
    rw [hc, hc'] at hchain
    exact Except.ok.inj hchain
  have hlower : ∀ {q : Query} {c : Chain}, q.chain = .ok c → q.lower names policy = c.lower names policy := by
    intro q c hc
    rw [Query.lower, hc, Except.bind_ok]
  refine ⟨hchain, fun c c' hc hc' => ⟨Chain.flow_unmarked (htrees hc hc') names, fun hapart hapart' => ?_⟩,
    fun p p' hp hp' => ?_⟩
  · rw [hlower hc, hlower hc']
    exact Chain.lower_map_unnumbered (htrees hc hc') (Chain.flow_trees (htrees hc hc') hapart hapart' names)
  · obtain ⟨c, f, first, rest, hacc⟩ := Query.lower_eq_ok hp
    obtain ⟨c', f', first', rest', hacc'⟩ := Query.lower_eq_ok hp'
    have hsame := htrees hacc.chain hacc'.chain
    rw [hlower hacc.chain] at hp
    rw [hlower hacc'.chain] at hp'
    have hpipelines := hacc.sameTrees hacc' hsame (Chain.lower_unnumbered hsame hp hp')
    exact ⟨hpipelines, hpipelines.runWith_eq names⟩

/-- Numbers that are doubled: `from x in [7] where x is int i && i > 0 select i + i`, where the second `i` of the sum is
the node of the first, `⟨8⟩`, or a copy, `⟨9⟩`. -/
def Query.doubled (second : NodeId) : Query where
  pool :=
    { nodes := #[⟨.literal (.int 7), ⟨0, 1⟩⟩, ⟨.row .list ⟨0, 1⟩, ⟨2, 3⟩⟩, ⟨.ident ⟨1⟩, ⟨4, 5⟩⟩,
        ⟨.test (.hasType .int) ⟨2⟩ ⟨2⟩, ⟨6, 7⟩⟩, ⟨.ident ⟨2⟩, ⟨8, 9⟩⟩, ⟨.literal (.int 0), ⟨10, 11⟩⟩,
        ⟨.operator .gt ⟨4⟩ ⟨5⟩, ⟨12, 13⟩⟩, ⟨.connective .and ⟨3⟩ ⟨6⟩, ⟨14, 15⟩⟩, ⟨.ident ⟨2⟩, ⟨16, 17⟩⟩,
        ⟨.ident ⟨2⟩, ⟨16, 17⟩⟩, ⟨.operator .add ⟨8⟩ second, ⟨18, 19⟩⟩]
      lists := #[⟨0⟩] }
  clauses :=
    [⟨.source, ⟨1⟩, .one ⟨1⟩, .object, ⟨0, 1⟩⟩, ⟨.filter, ⟨7⟩, .none, .bool, ⟨0, 1⟩⟩,
      ⟨.select, ⟨10⟩, .none, .int, ⟨0, 1⟩⟩]

/-- The spellings of the names of these queries. -/
def Query.sharedNames : SymbolTable := ⟨#["", "x", "i"]⟩

theorem Query.doubled_lower_sameTrees : (Query.doubled ⟨8⟩).SameTrees (Query.doubled ⟨9⟩) ∧
    ∃ c c' p p', (Query.doubled ⟨8⟩).chain = .ok c ∧ (Query.doubled ⟨9⟩).chain = .ok c' ∧
      (∀ l ∈ c.links, l.term.OrderedApart) ∧ (∀ l ∈ c'.links, l.term.OrderedApart) ∧
      (Query.doubled ⟨8⟩).lower Query.sharedNames .unique = .ok p ∧
      (Query.doubled ⟨9⟩).lower Query.sharedNames .unique = .ok p' ∧ p.SameTrees p' ∧
      p'.runWith Query.sharedNames .empty = .ok ([.int 14], .empty) := by
  have htrees : (Query.doubled ⟨8⟩).SameTrees (Query.doubled ⟨9⟩) := by
    refine .cons ⟨rfl, rfl, rfl, rfl, rfl, ?_⟩ (.cons ⟨rfl, rfl, rfl, rfl, rfl, ?_⟩
      (.cons ⟨rfl, rfl, rfl, rfl, rfl, ?_⟩ .nil))
    · cbv
    · cbv
    · cbv
  obtain ⟨c, hc⟩ : ∃ c, (Query.doubled ⟨8⟩).chain = .ok c := ⟨_, rfl⟩
  obtain ⟨c', hc'⟩ : ∃ c, (Query.doubled ⟨9⟩).chain = .ok c := ⟨_, rfl⟩
  obtain ⟨p, hp⟩ : ∃ p, (Query.doubled ⟨8⟩).lower Query.sharedNames .unique = .ok p := ⟨_, rfl⟩
  have hapart : (Query.doubled ⟨8⟩).chain.toOption.map (fun c => c.links.all fun l => decide l.term.OrderedApart) =
      some true := by cbv
  have hapart' : (Query.doubled ⟨9⟩).chain.toOption.map (fun c => c.links.all fun l => decide l.term.OrderedApart) =
      some true := by cbv
  have hrun : ((Query.doubled ⟨8⟩).lower Query.sharedNames .unique).toOption.map
      (fun p => p.runWith Query.sharedNames .empty) = some (.ok ([.int 14], .empty)) := by cbv
  rw [hc] at hapart
  rw [hc'] at hapart'
  rw [hp] at hrun
  simp only [Except.toOption, Option.map_some, Option.some.injEq, List.all_eq_true, decide_eq_true_eq] at hapart hapart'
  have hrun : p.runWith Query.sharedNames .empty = .ok ([.int 14], .empty) := Option.some.inj hrun
  obtain ⟨-, hlower, hboth⟩ := Query.lower_sameTrees htrees Query.sharedNames .unique
  have hpipelines := (hlower c c' hc hc').2 hapart hapart'
  rw [hp] at hpipelines
  obtain ⟨p', hp'⟩ : ∃ p', (Query.doubled ⟨9⟩).lower Query.sharedNames .unique = .ok p' := by
    cases hlower' : (Query.doubled ⟨9⟩).lower Query.sharedNames .unique with
    | ok p' => exact ⟨p', rfl⟩
    | error e =>
      rw [hlower'] at hpipelines
      cases hpipelines
  obtain ⟨hsame, hruns⟩ := hboth p p' hp hp'
  exact ⟨htrees, c, c', p, p', hc, hc', hapart, hapart', hp, hp', hsame, (hruns .empty).trans hrun⟩

/-- A test that is made again: `from x in [7] where x is int i && i > 0 || x is int i select x`, where the second test
is the node of the first, `⟨3⟩`, or a copy, `⟨10⟩`. -/
def Query.retested (second : NodeId) : Query where
  pool :=
    { nodes := #[⟨.literal (.int 7), ⟨0, 1⟩⟩, ⟨.row .list ⟨0, 1⟩, ⟨2, 3⟩⟩, ⟨.ident ⟨1⟩, ⟨4, 5⟩⟩,
        ⟨.test (.hasType .int) ⟨2⟩ ⟨2⟩, ⟨6, 7⟩⟩, ⟨.ident ⟨2⟩, ⟨8, 9⟩⟩, ⟨.literal (.int 0), ⟨10, 11⟩⟩,
        ⟨.operator .gt ⟨4⟩ ⟨5⟩, ⟨12, 13⟩⟩, ⟨.connective .and ⟨3⟩ ⟨6⟩, ⟨14, 15⟩⟩,
        ⟨.connective .or ⟨7⟩ second, ⟨16, 17⟩⟩, ⟨.ident ⟨1⟩, ⟨18, 19⟩⟩, ⟨.test (.hasType .int) ⟨2⟩ ⟨2⟩, ⟨6, 7⟩⟩]
      lists := #[⟨0⟩] }
  clauses :=
    [⟨.source, ⟨1⟩, .one ⟨1⟩, .object, ⟨0, 1⟩⟩, ⟨.filter, ⟨8⟩, .none, .bool, ⟨0, 1⟩⟩,
      ⟨.select, ⟨9⟩, .none, .object, ⟨0, 1⟩⟩]

/-- If the test is shared, only its second place counts, which comes after the use of `i`: the use is rejected.  The
same trees are accepted if the test is copied. -/
theorem Query.retested_verdicts_differ : (Query.retested ⟨3⟩).SameTrees (Query.retested ⟨10⟩) ∧
    (Query.retested ⟨3⟩).lower Query.sharedNames .unique =
      .error (.error (.one ⟨1, ⟨8, 9⟩, .unassigned "i"⟩)) ∧
    ∃ p, (Query.retested ⟨10⟩).lower Query.sharedNames .unique = .ok p ∧
      p.runWith Query.sharedNames .empty = .ok ([.int 7], .empty) := by
  refine ⟨?_, by cbv, ?_⟩
  · refine .cons ⟨rfl, rfl, rfl, rfl, rfl, ?_⟩ (.cons ⟨rfl, rfl, rfl, rfl, rfl, ?_⟩
      (.cons ⟨rfl, rfl, rfl, rfl, rfl, ?_⟩ .nil))
    · cbv
    · cbv
    · cbv
  · obtain ⟨p, hp⟩ : ∃ p, (Query.retested ⟨10⟩).lower Query.sharedNames .unique = .ok p := ⟨_, rfl⟩
    have hrun : ((Query.retested ⟨10⟩).lower Query.sharedNames .unique).toOption.map
        (fun p => p.runWith Query.sharedNames .empty) = some (.ok ([.int 7], .empty)) := by cbv
    rw [hp] at hrun
    exact ⟨p, hp, Option.some.inj hrun⟩

end QueryPipeline
