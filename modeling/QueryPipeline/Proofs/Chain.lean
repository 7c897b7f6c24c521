import QueryPipeline.Proofs.Eval
import QueryPipeline.Scope.Rules

/-!
# Chains and their bindings

Where a clause stands in its chain (`Chain.At`), how it comes from a clause of the query, and where its bindings lie
in the table (`Link.Of`, `Query.chain_link`).  From this follows what a binding of a clause is: a range variable is
named by the clause, a pattern variable by a test in the clause's expression, and both know their clause.  If a
clause binds no more names than a stretch of the table can count, every name that its tests bind has a binding.
-/

namespace QueryPipeline

/-! ### Places in a chain -/

/-- The clause stands in the chain behind the clauses `before`, latest first, and ahead of the clauses `rest`. -/
def Chain.At (c : Chain) (before : List Link) (l : Link) (rest : List Link) : Prop :=
  c.links = before.reverse ++ l :: rest

theorem Chain.At.links_cons {c : Chain} {before rest : List Link} {l : Link} (h : c.At before l rest) :
    c.links = (l :: before).reverse ++ rest := by
  rw [h]
  simp

theorem Chain.At.getElem? {c : Chain} {before rest : List Link} {l : Link} (h : c.At before l rest) :
    c.links[before.length]? = some l := by
  rw [h, List.getElem?_append_right (by simp)]
  simp

theorem Chain.At.of_mem {c : Chain} {before rest : List Link} {l l' : Link} (h : c.At before l rest)
    (hl : l' ∈ before) : ∃ before' rest', c.At before' l' rest' ∧ before'.length < before.length := by
  obtain ⟨later, earlier, rfl⟩ := List.append_of_mem hl
  refine ⟨earlier, later.reverse ++ l :: rest, ?_, by simp; omega⟩
  unfold Chain.At at *
  simpa using h

theorem Chain.at_take {c : Chain} {k : Nat} {l : Link} (hl : c.links[k]? = some l) :
    c.At (c.links.take k).reverse l (c.links.drop (k + 1)) := by
  obtain ⟨hk, rfl⟩ := List.getElem?_eq_some_iff.1 hl
  unfold Chain.At
  rw [List.reverse_reverse, List.getElem_cons_drop, List.take_append_drop]

theorem Chain.exists_at {c : Chain} {k : Nat} {l : Link} (hl : c.links[k]? = some l) :
    ∃ before rest, c.At before l rest ∧ before.length = k := by
  have hk := (List.getElem?_eq_some_iff.1 hl).1
  exact ⟨_, _, Chain.at_take hl, by simp; omega⟩

/-! ### Stretches of the table -/

private theorem BindingRange.mem_ids {r : BindingRange} {b : BindingId} :
    b ∈ r.ids ↔ r.start ≤ b.index ∧ b.index < r.start + r.len := by
  unfold BindingRange.ids
  rw [List.mem_map]
  constructor
  · rintro ⟨i, hi, rfl⟩
    exact List.mem_range'_1.1 hi
  · intro h
    exact ⟨b.index, List.mem_range'_1.2 h, rfl⟩

/-- How a clause of the chain comes from a clause of the query at place `k`, and where its bindings lie. -/
structure Link.Of (pool : Pool) (table : List Binding) (k : Nat) (cl : Clause) (l : Link) : Prop where
  term : pool.term? cl.expr = some l.term
  kind : l.kind = cl.kind
  expr : l.expr = cl.expr
  ty : l.ty = cl.ty
  stretches : ∃ pre post, table = pre ++ (cl.rangeVariables k ++ l.term.patternVariables k) ++ post ∧
    l.ranges = .ofCount pre.length (cl.rangeVariables k).length ∧
    l.patterns = .ofCount (pre.length + (cl.rangeVariables k).length) (l.term.patternVariables k).length

private theorem linksFrom_split {pool : Pool} {index : Nat} {clauses : List Clause} {links : List Link}
    {earlier bindings : List Binding} (h : linksFrom pool index earlier.length clauses = some (links, bindings))
    {done rest : List Link} {l : Link} (hl : links = done ++ l :: rest) :
    ∃ cl, clauses[done.length]? = some cl ∧ l.Of pool (earlier ++ bindings) (index + done.length) cl := by
  induction clauses generalizing index earlier links bindings done with
  | nil =>
    simp only [linksFrom, Option.some.injEq, Prod.mk.injEq] at h
    rw [← h.1] at hl
    exact absurd hl.symm (by simp)
  | cons cl clauses ih =>
    simp only [linksFrom, Option.bind_eq_bind, Option.bind_eq_some_iff, Option.some.injEq, Prod.exists,
      Prod.mk.injEq] at h
    obtain ⟨t, ht, links', bindings', h', rfl, rfl⟩ := h
    cases done with
    | nil =>
      simp only [List.nil_append, List.cons.injEq] at hl
      obtain ⟨rfl, -⟩ := hl
      exact ⟨cl, rfl, ht, rfl, rfl, rfl, earlier, bindings', by simp, rfl, rfl⟩
    | cons l' done =>
      simp only [List.cons_append, List.cons.injEq] at hl
      have hlen : earlier.length + (cl.rangeVariables index).length + (t.patternVariables index).length =
          (earlier ++ (cl.rangeVariables index ++ t.patternVariables index)).length := by simp; omega
      rw [hlen] at h'
      obtain ⟨cl', hcl, hof⟩ := ih h' hl.2
      refine ⟨cl', by simpa using hcl, ?_⟩
      have hk : index + 1 + done.length = index + (l' :: done).length := by simp; omega
      have htable : earlier ++ (cl.rangeVariables index ++ t.patternVariables index) ++ bindings' =
          earlier ++ (cl.rangeVariables index ++ t.patternVariables index ++ bindings') := by simp
      rw [hk, htable] at hof
      exact hof

/-! ### The chain of a query -/

namespace Query

variable {q : Query} {c : Chain}

theorem chain_eq_ok (h : q.chain = .ok c) :
    q.grammarFault? = none ∧ ∃ bindings, linksFrom q.pool 0 0 q.clauses = some (c.links, bindings) ∧
      c.pool = q.pool ∧ c.bindings = bindings.toArray := by
  unfold Query.chain at h
  split at h
  · cases h
  · rename_i hg
    split at h
    · cases h
    · rename_i links bindings hb
      obtain rfl := Except.ok.inj h
      exact ⟨hg, bindings, hb, rfl, rfl⟩

/-- Every clause of the chain comes from the clause of the query at its place. -/
theorem chain_link (h : q.chain = .ok c) {before rest : List Link} {l : Link} (hat : c.At before l rest) :
    ∃ cl, q.clauses[before.length]? = some cl ∧ l.Of c.pool c.bindings.toList before.length cl := by
  obtain ⟨-, bindings, hb, hp, ht⟩ := chain_eq_ok h
  have hb : linksFrom q.pool 0 ([] : List Binding).length q.clauses = some (c.links, bindings) := hb
  have := linksFrom_split hb hat
  rw [ht, hp]
  simpa using this

end Query

/-! ### The grammar of a clause -/

private theorem ite_some_eq_none {α : Type} {P : Prop} [Decidable P] {a : α} {o : Option α} :
    (if P then some a else o) = none ↔ ¬ P ∧ o = none := by
  by_cases h : P <;> simp [h]

theorem Clause.grammarFault?_eq_none {pool : Pool} {last index : Nat} {cl : Clause}
    (h : cl.grammarFault? pool last index = none) :
    (cl.kind = .source ↔ index = 0) ∧ (cl.kind = .select ↔ index = last) ∧ cl.binderFits = true ∧
      ¬ (!cl.expr.isValid || (pool.get? cl.expr).isNone) = true := by
  simp only [grammarFault?, ite_some_eq_none] at h
  obtain ⟨hsource, hselect, hfirst, hlast, hbinder, hexpr, -⟩ := h
  refine ⟨⟨fun hkind => ?_, fun hindex => ?_⟩, ⟨fun hkind => ?_, fun hindex => ?_⟩, by simpa using hbinder, hexpr⟩
  · exact Classical.byContradiction fun hindex => hsource ⟨hkind, hindex⟩
  · exact Classical.byContradiction fun hkind => hfirst ⟨hindex, hkind⟩
  · exact Classical.byContradiction fun hindex => hselect ⟨hkind, hindex⟩
  · exact Classical.byContradiction fun hkind => hlast ⟨hindex, hkind⟩

theorem grammarFaultFrom?_eq_none_iff {pool : Pool} {last k : Nat} {clauses : List Clause} :
    grammarFaultFrom? pool last k clauses = none ↔
      ∀ (i : Nat) (cl : Clause), clauses[i]? = some cl → cl.grammarFault? pool last (k + i) = none := by
  induction clauses generalizing k with
  | nil => simp [grammarFaultFrom?]
  | cons cl clauses ih =>
    unfold grammarFaultFrom?
    cases hfault : cl.grammarFault? pool last k with
    | some fault =>
      refine iff_of_false (by simp) ?_
      intro hall
      have := hall 0 cl rfl
      rw [Nat.add_zero, hfault] at this
      cases this
    | none =>
      rw [ih]
      constructor
      · intro hall i cl' hi
        cases i with
        | zero =>
          obtain rfl := Option.some.inj hi
          exact hfault
        | succ i =>
          have hplace : k + (i + 1) = k + 1 + i := by omega
          rw [hplace]
          exact hall i cl' hi
      · intro hall i cl' hi
        have hplace : k + 1 + i = k + (i + 1) := by omega
        rw [hplace]
        exact hall (i + 1) cl' hi

private theorem Query.grammarFault?_at {q : Query} (h : q.grammarFault? = none) {i : Nat} {cl : Clause}
    (hi : q.clauses[i]? = some cl) : cl.grammarFault? q.pool (q.clauses.length - 1) i = none := by
  unfold Query.grammarFault? at h
  split at h
  · cases h
  · simpa using grammarFaultFrom?_eq_none_iff.1 h i cl hi

/-! ### Range variables -/

theorem Clause.mem_rangeVariables {k : Nat} {cl : Clause} {bd : Binding} (h : bd ∈ cl.rangeVariables k) :
    bd.kind = .range ∧ bd.clause = k ∧ (cl.binderFits = true → bd.name.isPresent = true) := by
  unfold Clause.rangeVariables at h
  split at h
  · cases h
  · rename_i x hb
    obtain rfl := List.mem_singleton.1 h
    refine ⟨rfl, rfl, fun hf => ?_⟩
    unfold Clause.binderFits at hf
    rw [hb] at hf
    cases hk : cl.kind <;> rw [hk] at hf <;> first | exact hf | cases hf
  · rename_i xs hb
    obtain ⟨⟨x, i⟩, hx, rfl⟩ := List.mem_map.1 h
    refine ⟨rfl, rfl, fun hf => ?_⟩
    unfold Clause.binderFits at hf
    rw [hb] at hf
    have hxs : x ∈ xs := (List.mem_zipIdx hx).2.2 ▸ List.getElem_mem _
    cases hk : cl.kind <;> rw [hk] at hf <;> first | exact List.all_eq_true.1 hf x hxs | cases hf

theorem Clause.length_rangeVariables {k : Nat} {cl : Clause} (hf : cl.binderFits = true)
    (hk : cl.kind = .source ∨ cl.kind = .generator ∨ cl.kind = .define) : (cl.rangeVariables k).length = 1 := by
  unfold Clause.binderFits at hf
  unfold Clause.rangeVariables
  rcases hk with hk | hk | hk <;> rw [hk] at hf <;> cases hb : cl.binder <;> rw [hb] at hf <;> first | rfl | cases hf

/-! ### Pattern variables -/

theorem Symbol.mem_of_mem_firstOfEach {α : Type} {name : α → Symbol} {a : α} {l : List α}
    (h : a ∈ firstOfEach name l) : a ∈ l := by
  induction l with
  | nil => cases h
  | cons b l ih =>
    rcases List.mem_cons.1 h with rfl | h
    · simp
    · exact List.mem_cons_of_mem _ (ih (List.mem_filter.1 h).1)

theorem Symbol.exists_mem_firstOfEach {α : Type} (name : α → Symbol) {a : α} {l : List α} (h : a ∈ l) :
    ∃ b ∈ firstOfEach name l, name b = name a := by
  induction l with
  | nil => cases h
  | cons b l ih =>
    by_cases hb : name b = name a
    · exact ⟨b, by simp [firstOfEach], hb⟩
    · rcases List.mem_cons.1 h with rfl | h
      · exact absurd rfl hb
      · obtain ⟨d, hd, hda⟩ := ih h
        refine ⟨d, List.mem_cons_of_mem _ (List.mem_filter.2 ⟨hd, ?_⟩), hda⟩
        rw [hda]
        simpa using Ne.symm hb

theorem Symbol.firstOfEach_nodup {α : Type} (name : α → Symbol) (l : List α) :
    ((firstOfEach name l).map name).Nodup := by
  induction l with
  | nil => exact List.nodup_nil
  | cons a l ih =>
    rw [firstOfEach, List.map_cons, List.nodup_cons]
    constructor
    · intro hmem
      obtain ⟨b, hb, heq⟩ := List.mem_map.1 hmem
      have hne : name b ≠ name a := by simpa using (List.mem_filter.1 hb).2
      exact hne heq
    · exact ih.sublist (List.filter_sublist.map name)

/-- The names that the tests of the term bind, in the order of a walk. -/
def Term.boundNames (t : Term) : List Symbol := t.walk.filterMap Term.bound?

theorem Term.mem_boundNames {t : Term} {x : Symbol} :
    x ∈ t.boundNames ↔ x.isPresent = true ∧ ∃ o q e, test o q e x ∈ t.preorder := by
  unfold Term.boundNames
  rw [walk_eq, List.mem_filterMap]
  constructor
  · rintro ⟨u, hu, hx⟩
    cases u <;> simp only [bound?, reduceCtorEq] at hx
    rename_i o q e y
    split at hx
    · rename_i hy
      obtain rfl := Option.some.inj hx
      exact ⟨hy, o, q, e, hu⟩
    · cases hx
  · rintro ⟨hx, o, q, e, hu⟩
    exact ⟨_, hu, by simp [bound?, hx]⟩

theorem Term.mem_patternVariables {k : Nat} {t : Term} {bd : Binding} (h : bd ∈ t.patternVariables k) :
    bd.kind = .pattern (t.condition bd.name) ∧ bd.clause = k ∧ bd.name ∈ t.boundNames := by
  obtain ⟨⟨x, u⟩, hx, rfl⟩ := List.mem_map.1 h
  refine ⟨rfl, rfl, ?_⟩
  obtain ⟨w, hw, hxu⟩ := List.mem_filterMap.1 (Symbol.mem_of_mem_firstOfEach hx)
  obtain ⟨y, hy, hyu⟩ := Option.map_eq_some_iff.1 hxu
  obtain ⟨rfl, rfl⟩ := Prod.mk.inj hyu
  exact List.mem_filterMap.2 ⟨w, hw, hy⟩

theorem Term.exists_patternVariable {k : Nat} {t : Term} {x : Symbol} (h : x ∈ t.boundNames) :
    ∃ bd ∈ t.patternVariables k, bd.name = x := by
  obtain ⟨u, hu, hx⟩ := List.mem_filterMap.1 h
  have hmem : (x, u) ∈ t.walk.filterMap fun u => u.bound?.map fun x => (x, u) :=
    List.mem_filterMap.2 ⟨u, hu, by simp [hx]⟩
  obtain ⟨⟨y, w⟩, hw, rfl⟩ := Symbol.exists_mem_firstOfEach Prod.fst hmem
  exact ⟨_, List.mem_map.2 ⟨(y, w), hw, rfl⟩, rfl⟩

/-! ### The bindings of a clause -/

namespace Link.Of

variable {pool : Pool} {table : List Binding} {k : Nat} {cl : Clause} {l : Link}

private theorem range_binding (h : l.Of pool table k cl) {b : BindingId} (hb : b ∈ l.ranges.ids) :
    ∃ bd ∈ cl.rangeVariables k, table[b.index]? = some bd := by
  obtain ⟨pre, post, htable, hr, -⟩ := h.stretches
  rw [BindingRange.mem_ids, hr] at hb
  simp only [BindingRange.ofCount] at hb
  have hlt : b.index - pre.length < (cl.rangeVariables k).length := by omega
  refine ⟨_, List.getElem_mem hlt, ?_⟩
  rw [htable, List.append_assoc, List.append_assoc, List.getElem?_append_right hb.1,
    List.getElem?_append_left hlt, List.getElem?_eq_getElem hlt]

theorem pattern_binding (h : l.Of pool table k cl) {b : BindingId} (hb : b ∈ l.patterns.ids) :
    ∃ bd ∈ l.term.patternVariables k, table[b.index]? = some bd := by
  obtain ⟨pre, post, htable, -, hp⟩ := h.stretches
  rw [BindingRange.mem_ids, hp] at hb
  simp only [BindingRange.ofCount] at hb
  have hlt : b.index - pre.length - (cl.rangeVariables k).length < (l.term.patternVariables k).length := by omega
  refine ⟨_, List.getElem_mem hlt, ?_⟩
  rw [htable, List.append_assoc, List.append_assoc, List.getElem?_append_right (by omega),
    List.getElem?_append_right (by omega), List.getElem?_append_left hlt, List.getElem?_eq_getElem hlt]

/-- If the clause does not bind too many names, each of its pattern variables has an id. -/
theorem exists_pattern_id (h : l.Of pool table k cl) (hlen : (l.term.patternVariables k).length ≤ maxListLength)
    {x : Symbol} (hx : x ∈ l.term.boundNames) :
    ∃ b ∈ l.patterns.ids, ∃ bd, table[b.index]? = some bd ∧ bd.name = x := by
  obtain ⟨pre, post, htable, -, hp⟩ := h.stretches
  obtain ⟨bd, hbd, hname⟩ := Term.exists_patternVariable (k := k) hx
  obtain ⟨i, hi, rfl⟩ := List.getElem_of_mem hbd
  refine ⟨⟨pre.length + (cl.rangeVariables k).length + i⟩, ?_, _, ?_, hname⟩
  · rw [BindingRange.mem_ids, hp]
    simp only [BindingRange.ofCount]
    omega
  · rw [htable, List.append_assoc, List.append_assoc, List.getElem?_append_right (by simp; omega),
      List.getElem?_append_right (by simp; omega), List.getElem?_append_left (by simp; omega),
      ← List.getElem?_eq_getElem hi]
    congr 1
    simp
    omega

end Link.Of

/-! ### Clauses at their places -/

/-- Every clause comes from a clause that introduces the names its kind asks for; the source is the first one and
the selection the last. -/
def Chain.Formed (c : Chain) : Prop :=
  ∀ before l rest, c.At before l rest → ∃ cl : Clause, l.Of c.pool c.bindings.toList before.length cl ∧
    cl.binderFits = true ∧ (l.kind = .source ↔ before = []) ∧ (l.kind = .select ↔ rest = [])

theorem linksFrom_length {pool : Pool} {index count : Nat} {clauses : List Clause} {links : List Link}
    {bindings : List Binding} (h : linksFrom pool index count clauses = some (links, bindings)) :
    links.length = clauses.length := by
  induction clauses generalizing index count links bindings with
  | nil =>
    simp only [linksFrom, Option.some.injEq, Prod.mk.injEq] at h
    rw [← h.1]
    rfl
  | cons cl clauses ih =>
    simp only [linksFrom, Option.bind_eq_bind, Option.bind_eq_some_iff, Option.some.injEq, Prod.exists,
      Prod.mk.injEq] at h
    obtain ⟨t, _, links', bindings', h', rfl, _⟩ := h
    simp [ih h']

theorem Query.chain_formed {q : Query} {c : Chain} (h : q.chain = .ok c) : c.Formed := by
  intro before l rest hat
  obtain ⟨hg, bindings, hb, -, -⟩ := chain_eq_ok h
  obtain ⟨cl, hcl, hof⟩ := chain_link h hat
  obtain ⟨hsource, hselect, hfits, -⟩ := Clause.grammarFault?_eq_none (grammarFault?_at hg hcl)
  have hlen : before.length + (1 + rest.length) = q.clauses.length := by
    rw [← linksFrom_length hb, hat]
    simp
    omega
  refine ⟨cl, hof, hfits, ?_, ?_⟩
  · rw [hof.kind, hsource, List.length_eq_zero_iff]
  · rw [hof.kind, hselect, ← List.length_eq_zero_iff]
    omega

namespace Chain

variable {c : Chain} {before rest : List Link} {l : Link} {b : BindingId} {x : Symbol}

theorem binding?_eq (c : Chain) (b : BindingId) : c.binding? b = c.bindings.toList[b.index]? := by
  simp [binding?]

theorem At.range_id (hat : c.At before l rest) (hc : c.Formed) (hb : b ∈ l.ranges.ids) :
    ∃ bd, c.binding? b = some bd ∧ bd.kind = .range ∧ bd.clause = before.length ∧ bd.name.isPresent = true := by
  obtain ⟨cl, hof, hfits, -, -⟩ := hc _ _ _ hat
  obtain ⟨bd, hmem, hbd⟩ := hof.range_binding hb
  obtain ⟨hkind, hclause, hname⟩ := Clause.mem_rangeVariables hmem
  exact ⟨bd, by rw [binding?_eq, hbd], hkind, hclause, hname hfits⟩

theorem At.pattern_id (hat : c.At before l rest) (hc : c.Formed) (hb : b ∈ l.patterns.ids) :
    ∃ bd, c.binding? b = some bd ∧ bd.kind = .pattern (l.term.condition bd.name) ∧ bd.clause = before.length ∧
      bd.name ∈ l.term.boundNames := by
  obtain ⟨cl, hof, -, -, -⟩ := hc _ _ _ hat
  obtain ⟨bd, hmem, hbd⟩ := hof.pattern_binding hb
  obtain ⟨hkind, hclause, hname⟩ := Term.mem_patternVariables hmem
  exact ⟨bd, by rw [binding?_eq, hbd], hkind, hclause, hname⟩

theorem At.own_bound (hat : c.At before l rest) (hc : c.Formed) (hb : b ∈ l.patterns.ids) {bd : Binding}
    (hbd : c.binding? b = some bd) : bd.name ∈ l.term.boundNames := by
  obtain ⟨bd', hbd', -, -, hbound⟩ := hat.pattern_id hc hb
  obtain rfl := Option.mem_unique hbd hbd'
  exact hbound

theorem At.id (hat : c.At before l rest) (hc : c.Formed) (hb : b ∈ l.ids) :
    ∃ bd, c.binding? b = some bd ∧ bd.clause = before.length ∧ bd.name.isPresent = true := by
  rcases List.mem_append.1 hb with hb | hb
  · obtain ⟨bd, hbd, -, hclause, hname⟩ := hat.range_id hc hb
    exact ⟨bd, hbd, hclause, hname⟩
  · obtain ⟨bd, hbd, -, hclause, hname⟩ := hat.pattern_id hc hb
    exact ⟨bd, hbd, hclause, (Term.mem_boundNames.1 hname).1⟩

/-- No clause binds more names by tests than a stretch of the table can count. -/
def PatternsFit (c : Chain) : Prop := ∀ l ∈ c.links, l.term.firstTests.length ≤ maxListLength

instance (c : Chain) : Decidable c.PatternsFit := by unfold PatternsFit; infer_instance

theorem At.mem_links (hat : c.At before l rest) : l ∈ c.links := by
  rw [hat]
  simp

/-! ### Resolution -/

private theorem mem_named {ids : List BindingId} :
    b ∈ c.named x ids ↔ b ∈ ids ∧ ∃ bd, c.binding? b = some bd ∧ bd.name = x := by
  unfold named
  rw [List.mem_filter]
  refine and_congr_right fun _ => ?_
  cases c.binding? b <;> simp

theorem resolve_eq_sameClause (h : c.resolve x l before = .sameClause b) :
    b ∈ l.patterns.ids ∧ ∃ bd, c.binding? b = some bd ∧ bd.name = x := by
  unfold resolve at h
  split at h
  · rename_i b' hb
    obtain rfl : b' = b := by simpa using h
    exact mem_named.1 (List.mem_of_getLast? hb)
  · unfold denotedBefore at h
    split at h <;> cases h

/-- A name that a test of the clause binds denotes a variable of the clause. -/
theorem resolve_of_bound (hat : c.At before l rest) (hc : c.Formed) (hfit : c.PatternsFit)
    (hx : x ∈ l.term.boundNames) : ∃ b, c.resolve x l before = .sameClause b := by
  obtain ⟨cl, hof, -, -, -⟩ := hc _ _ _ hat
  have hlen : (l.term.patternVariables before.length).length ≤ maxListLength := by
    simpa [Term.patternVariables] using hfit l hat.mem_links
  obtain ⟨b, hb, bd, hbd, hname⟩ := hof.exists_pattern_id hlen hx
  have hmem : b ∈ c.named x l.patterns.ids := mem_named.2 ⟨hb, bd, by rw [binding?_eq, hbd], hname⟩
  unfold resolve
  cases hlast : (c.named x l.patterns.ids).getLast? with
  | some b' => exact ⟨b', rfl⟩
  | none => rw [List.getLast?_eq_none_iff.1 hlast] at hmem; cases hmem

theorem denotedBefore_eq_earlier (h : c.denotedBefore x before = .earlier b) :
    ∃ l' ∈ before, b ∈ l'.ids ∧ ∃ bd, c.binding? b = some bd ∧ bd.name = x := by
  unfold denotedBefore at h
  split at h
  · rename_i b' hb
    obtain rfl : b' = b := by simpa using h
    obtain ⟨l', hl', hlast⟩ := List.exists_of_findSome?_eq_some hb
    exact ⟨l', hl', mem_named.1 (List.mem_of_getLast? hlast)⟩
  · cases h

theorem resolve_eq_earlier (h : c.resolve x l before = .earlier b) : c.denotedBefore x before = .earlier b := by
  unfold resolve at h
  split at h
  · cases h
  · exact h

/-- No clause before has a variable of a name that belongs to the code around the query. -/
theorem denotedBefore_eq_outer (h : c.denotedBefore x before = .outer) {l' : Link} (hl : l' ∈ before)
    (hb : b ∈ l'.ids) {bd : Binding} (hbd : c.binding? b = some bd) : bd.name ≠ x := by
  rintro rfl
  unfold denotedBefore at h
  split at h
  · cases h
  · rename_i hnone
    have hlast := List.findSome?_eq_none_iff.1 hnone l' hl
    have hmem : b ∈ c.named bd.name l'.ids := mem_named.2 ⟨hb, bd, hbd, rfl⟩
    rw [List.getLast?_eq_none_iff.1 hlast] at hmem
    cases hmem

theorem resolve_eq_outer (h : c.resolve x l before = .outer) : c.denotedBefore x before = .outer := by
  unfold resolve at h
  split at h
  · cases h
  · exact h

end Chain

end QueryPipeline
