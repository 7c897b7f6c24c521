import QueryPipeline.Pipeline.Lowering
import QueryPipeline.Proofs.Chain

/-!
# What the rules of scope guarantee

A chain that keeps the rules (`Chain.KeepsRules`) is safe to run with variables that are kept by name.  A use of an
earlier clause's variable is never an assignment, and the variable lasts beyond its clause (`KeepsRules.earlier`).
No clause introduces a name that a lasting variable of an earlier clause has (`KeepsRules.fresh`), and no clause
introduces a name twice (`KeepsRules.distinct`).
-/

namespace QueryPipeline

theorem Report.check_eq_ok {rs : List Rejection} : Report.check rs = .ok () ↔ rs = [] := by
  unfold Report.check
  cases rs <;> simp [Report.ofList?]

theorem Rejection.mem_insert {x r : Rejection} {rs : List Rejection} :
    x ∈ Rejection.insert r rs ↔ x = r ∨ x ∈ rs := by
  induction rs with
  | nil => simp [Rejection.insert]
  | cons a rs ih =>
    unfold Rejection.insert
    split
    · simp
    · simp only [List.mem_cons, ih]
      exact or_left_comm

theorem Rejection.mem_sort {x : Rejection} {rs : List Rejection} : x ∈ Rejection.sort rs ↔ x ∈ rs := by
  unfold Rejection.sort
  induction rs with
  | nil => simp
  | cons r rs ih => simp [Rejection.mem_insert, ih]

/-- The chain is well formed, the flow is its flow, and no rule is broken. -/
structure Chain.KeepsRules (c : Chain) (f : Flow) (names : SymbolTable) (policy : ScopePolicy) : Prop where
  formed : c.Formed
  facts : f.facts = c.facts
  uses : f.uses = c.usesFrom [] c.links
  scope : c.scopeFaults f names policy = []
  assigned : f.unassignedFrom names 0 f.uses = []

/-- The variable can be used after its clause: it has a value there, and the policy lets it out. -/
def Chain.Lasts (c : Chain) (policy : ScopePolicy) (b : Binding) : Prop :=
  b.kind = .range ∨ (policy = .unique ∧ c.outlives b = true)

/-- A use in the clause, a read or an assignment of the name, is resolved in this way. -/
def Flow.Resolves (f : Flow) (clause : Nat) (x : Symbol) (isAssignment : Bool) (r : Resolution) : Prop :=
  ∃ u ∈ f.usesIn clause, u.name = x ∧ u.isAssignment = isAssignment ∧ u.resolution = r

/-! ### Uses at their places -/

namespace Chain

variable {c : Chain} {before rest : List Link} {l : Link}

private theorem usesFrom_getElem? (c : Chain) (earlier done rest : List Link) (l : Link) :
    (c.usesFrom earlier (done ++ l :: rest))[done.length]? = some (c.usesOf l (done.reverse ++ earlier)) := by
  induction done generalizing earlier with
  | nil => simp [usesFrom]
  | cons l' done ih => simpa [usesFrom] using ih (l' :: earlier)

theorem At.usesFrom_getElem? (hat : c.At before l rest) :
    (c.usesFrom [] c.links)[before.length]? = some (c.usesOf l before) := by
  have h := Chain.usesFrom_getElem? c [] before.reverse rest l
  rw [← hat] at h
  simpa using h

theorem exists_use (c : Chain) (before : List Link) {t : Term} {x : Symbol} {a : Bool} (ht : t ∈ l.term.preorder)
    (hm : t.mention? = some (x, a)) :
    ∃ u ∈ c.usesOf l before, u.name = x ∧ u.resolution = c.resolve x l before ∧ u.isAssignment = a := by
  unfold usesOf
  refine ⟨_, List.mem_filterMap.2 ⟨t, by rwa [Term.walk_eq], by rw [hm]; rfl⟩, rfl, rfl, rfl⟩

theorem mem_usesOf {u : Use} (hu : u ∈ c.usesOf l before) :
    ∃ t ∈ l.term.preorder, t.mention? = some (u.name, u.isAssignment) ∧
      u.resolution = c.resolve u.name l before := by
  unfold usesOf at hu
  obtain ⟨t, ht, hu⟩ := List.mem_filterMap.1 hu
  rw [Term.walk_eq] at ht
  obtain ⟨⟨x, a⟩, hm, rfl⟩ := Option.map_eq_some_iff.1 hu
  exact ⟨t, ht, hm, rfl⟩

private theorem At.lt_size (hat : c.At before l rest) : before.length < c.size := by
  unfold size
  rw [hat]
  simp

private theorem At.mem_clauseUses {f : Flow} {u : Use} (hat : c.At before l rest) (hu : u ∈ f.usesIn before.length) :
    (before.length, u) ∈ c.clauseUses f := by
  unfold clauseUses
  refine List.mem_flatMap.2 ⟨before.length, List.mem_range.2 hat.lt_size, List.mem_map.2 ⟨u, hu, rfl⟩⟩

theorem At.clause_lt {l' : Link} {b : BindingId} {bd : Binding} (hat : c.At before l rest) (hc : c.Formed)
    (hl : l' ∈ before) (hb : b ∈ l'.ids) (hbd : c.binding? b = some bd) : bd.clause < before.length := by
  obtain ⟨before', rest', hat', hlt⟩ := hat.of_mem hl
  obtain ⟨bd', hbd', hclause, -⟩ := hat'.id hc hb
  obtain rfl := Option.mem_unique hbd hbd'
  omega

end Chain

/-! ### The rules, read off the empty report -/

private theorem unassignedFrom_eq_nil {f : Flow} {names : SymbolTable} {k : Nat} {uses : List (List Use)}
    (h : f.unassignedFrom names k uses = []) {i : Nat} {us : List Use} (hi : uses[i]? = some us) {u : Use}
    (hu : u ∈ us) : f.isUnassigned (k + i) u = false := by
  induction uses generalizing k i with
  | nil => simp at hi
  | cons us' uses ih =>
    rw [Flow.unassignedFrom, List.append_eq_nil_iff, List.map_eq_nil_iff, List.filter_eq_nil_iff] at h
    cases i with
    | zero =>
      obtain rfl : us' = us := by simpa using hi
      simpa using h.1 u hu
    | succ i =>
      have := ih h.2 (by simpa using hi)
      rwa [Nat.add_assoc, Nat.add_comm 1] at this

private theorem repeatsFrom_eq_nil {names : SymbolTable} {policy : ScopePolicy} {before bs : List Binding}
    (h : Chain.repeatsFrom names policy before bs = []) :
    (∀ b ∈ bs, ∀ a ∈ before, a.name ≠ b.name) ∧ bs.Pairwise fun a b => a.name ≠ b.name := by
  induction bs generalizing before with
  | nil => simp
  | cons b bs ih =>
    unfold Chain.repeatsFrom at h
    split at h
    · cases h
    · rename_i hnone
      obtain ⟨hbefore, hpair⟩ := ih h
      have hb : ∀ a ∈ before, a.name ≠ b.name := fun a ha => by simpa using List.find?_eq_none.1 hnone a ha
      refine ⟨fun d hd a ha => ?_, List.pairwise_cons.2 ⟨fun d hd => ?_, hpair⟩⟩
      · rcases List.mem_cons.1 hd with rfl | hd
        · exact hb a ha
        · exact hbefore d hd a (List.mem_append_left _ ha)
      · exact hbefore d hd b (by simp)

private theorem rebindingsIn_eq_nil {c : Chain} {f : Flow} {names : SymbolTable} {policy : ScopePolicy} {k : Nat}
    {before : List BindingId} {own : List Symbol} {ids : List BindingId}
    (h : c.rebindingsIn f names policy k before own ids = []) :
    (∀ id ∈ ids, ∀ b, c.binding? id = some b → b.name ∉ own ∧ c.isHeld f policy k b before = false) ∧
      ids.Pairwise fun i j => ∀ a b, c.binding? i = some a → c.binding? j = some b → a.name ≠ b.name := by
  induction ids generalizing own with
  | nil => simp
  | cons id ids ih =>
    rw [Chain.rebindingsIn] at h
    cases hb : c.binding? id with
    | none =>
      simp only [hb] at h
      obtain ⟨hown, hpair⟩ := ih h
      refine ⟨fun i hi b hib => ?_, List.pairwise_cons.2 ⟨fun j _ a b ha _ => ?_, hpair⟩⟩
      · rcases List.mem_cons.1 hi with rfl | hi
        · rw [hb] at hib; cases hib
        · exact hown i hi b hib
      · rw [hb] at ha; cases ha
    | some b =>
      simp only [hb] at h
      split at h
      · cases h
      · rename_i hfree
        rw [Bool.or_eq_true, not_or, List.contains_iff_mem] at hfree
        obtain ⟨hown, hpair⟩ := ih h
        refine ⟨fun i hi d hid => ?_, List.pairwise_cons.2 ⟨fun j hj a d ha hd => ?_, hpair⟩⟩
        · rcases List.mem_cons.1 hi with rfl | hi
          · obtain rfl : b = d := by rw [hb] at hid; exact Option.some.inj hid
            exact ⟨hfree.1, by simpa using hfree.2⟩
          · obtain ⟨hn, hheld⟩ := hown i hi d hid
            exact ⟨fun hmem => hn (List.mem_cons_of_mem _ hmem), hheld⟩
        · obtain rfl : b = a := by rw [hb] at ha; exact Option.some.inj ha
          intro heq
          exact (hown j hj d hd).1 (by simp [heq])

private theorem rebindingsFrom_eq_nil {c : Chain} {f : Flow} {names : SymbolTable} {policy : ScopePolicy} {k : Nat}
    {ids : List BindingId} {done rest : List Link} {l : Link}
    (h : c.rebindingsFrom f names policy k ids (done ++ l :: rest) = []) :
    c.rebindingsIn f names policy (k + done.length) (ids ++ done.flatMap Link.ids) [] l.ids = [] := by
  induction done generalizing k ids with
  | nil =>
    rw [List.nil_append, Chain.rebindingsFrom, List.append_eq_nil_iff] at h
    simpa using h.1
  | cons l' done ih =>
    rw [List.cons_append, Chain.rebindingsFrom, List.append_eq_nil_iff] at h
    have := ih h.2
    rw [Nat.add_assoc, Nat.add_comm 1, List.append_assoc] at this
    simpa using this

/-! ### Guarantees -/

namespace Chain.KeepsRules

variable {c : Chain} {f : Flow} {names : SymbolTable} {policy : ScopePolicy}
variable {before rest : List Link} {l : Link} {b : BindingId} {bd : Binding}

theorem usesIn (h : c.KeepsRules f names policy) (hat : c.At before l rest) :
    f.usesIn before.length = c.usesOf l before := by
  unfold Flow.usesIn
  rw [h.uses, hat.usesFrom_getElem?]
  rfl

theorem resolves_iff (h : c.KeepsRules f names policy) (hat : c.At before l rest) {x : Symbol} {a : Bool}
    {r : Resolution} : f.Resolves before.length x a r ↔
      (∃ t ∈ l.term.preorder, t.mention? = some (x, a)) ∧ c.resolve x l before = r := by
  unfold Flow.Resolves
  rw [h.usesIn hat]
  constructor
  · rintro ⟨u, hu, rfl, rfl, rfl⟩
    obtain ⟨t, ht, hm, hr⟩ := mem_usesOf hu
    exact ⟨⟨t, ht, hm⟩, hr.symm⟩
  · rintro ⟨⟨t, ht, hm⟩, rfl⟩
    obtain ⟨u, hu, hname, hr, ha⟩ := exists_use c before ht hm
    exact ⟨u, hu, hname, ha, hr⟩

theorem fact (h : c.KeepsRules f names policy) {k : Nat} (hk : k < c.size) (hbd : c.binding? b = some bd) :
    f.fact k b = bd.factIn (c.outlives bd) k := by
  unfold Flow.fact
  rw [binding?_eq] at hbd
  rw [h.facts, Chain.facts, List.getElem?_map, hbd]
  simp [factsOf, hk]

private theorem scope_nil (h : c.KeepsRules f names policy) :
    (policy = .disallow → c.escapes f names policy = []) ∧ (policy = .unique → c.repeats names policy = []) ∧
      c.readOnlyAssignments f names = [] ∧ c.rebindingsFrom f names policy 0 [] c.links = [] := by
  have hs := h.scope
  unfold scopeFaults at hs
  rw [List.append_eq_nil_iff, List.append_eq_nil_iff] at hs
  obtain ⟨⟨hpolicy, hread⟩, hre⟩ := hs
  refine ⟨?_, ?_, hread, hre⟩
  · rintro rfl
    exact hpolicy
  · rintro rfl
    exact hpolicy

/-- A use of a variable of an earlier clause is no assignment, and the variable lasts beyond its clause. -/
theorem earlier (h : c.KeepsRules f names policy) (hat : c.At before l rest) {t : Term} {x : Symbol} {a : Bool}
    (ht : t ∈ l.term.preorder) (hm : t.mention? = some (x, a)) (hr : c.resolve x l before = .earlier b) :
    a = false ∧ ∃ l' ∈ before, b ∈ l'.ids ∧ ∃ bd, c.binding? b = some bd ∧ bd.name = x ∧ c.Lasts policy bd := by
  obtain ⟨l', hl', hb, bd, hbd, hname⟩ := denotedBefore_eq_earlier (resolve_eq_earlier hr)
  have hlt := hat.clause_lt h.formed hl' hb hbd
  obtain ⟨u, hu, -, hres, hassign⟩ := exists_use c before ht hm
  rw [hr] at hres
  have hmem : (before.length, u) ∈ c.clauseUses f := hat.mem_clauseUses (by rw [h.usesIn hat]; exact hu)
  obtain ⟨hescape, -, hread, -⟩ := h.scope_nil
  refine ⟨?_, l', hl', hb, bd, hbd, hname, ?_⟩
  · -- an assignment would be reported, since the clause is not the variable's own
    have hnone := List.filterMap_eq_nil_iff.1 hread _ hmem
    simp only [hres, Resolution.binding?, hbd] at hnone
    have hother : bd.isAssignableIn before.length = false := by
      unfold Binding.isAssignableIn
      simp
      omega
    cases a with
    | false => rfl
    | true => simp [hassign, hother] at hnone
  · have hvalue : f.fact before.length b ≠ .unassigned := by
      have hus : f.uses[before.length]? = some (c.usesOf l before) := by rw [h.uses, hat.usesFrom_getElem?]
      have hfree := unassignedFrom_eq_nil h.assigned hus hu
      unfold Flow.isUnassigned at hfree
      rw [hres, Nat.zero_add] at hfree
      simpa using hfree
    have hout : c.outlives bd = true := by
      rw [h.fact hat.lt_size hbd] at hvalue
      unfold Binding.factIn at hvalue
      rw [if_neg (by omega), if_neg (by omega)] at hvalue
      cases hout : c.outlives bd with
      | true => rfl
      | false => rw [hout] at hvalue; exact absurd rfl hvalue
    cases hkind : bd.kind with
    | range => exact Or.inl hkind
    | pattern condition =>
      refine Or.inr ⟨?_, hout⟩
      cases policy with
      | unique => rfl
      | disallow =>
        have hnone := List.filterMap_eq_nil_iff.1 (hescape rfl) _ hmem
        simp [hres, hbd, Binding.isPattern, hkind] at hnone

private theorem patterns_distinct (h : c.KeepsRules f names .unique) {a : BindingId} {bda : Binding}
    (hbda : c.binding? a = some bda) (hbd : c.binding? b = some bd) (ha : bda.isPattern = true)
    (hb : bd.isPattern = true) (hne : a ≠ b) : bda.name ≠ bd.name := by
  obtain ⟨-, hrepeat, -, -⟩ := h.scope_nil
  have hpair := (repeatsFrom_eq_nil (hrepeat rfl)).2
  rw [List.pairwise_filter, List.pairwise_iff_getElem] at hpair
  rw [binding?_eq] at hbda hbd
  obtain ⟨hia, rfl⟩ := List.getElem?_eq_some_iff.1 hbda
  obtain ⟨hib, rfl⟩ := List.getElem?_eq_some_iff.1 hbd
  have hindex : a.index ≠ b.index := fun heq => hne (by cases a; cases b; simpa using heq)
  rcases Nat.lt_or_gt_of_ne hindex with hlt | hlt
  · exact hpair _ _ hia hib hlt ha hb
  · exact (hpair _ _ hib hia hlt hb ha).symm

/-- No clause introduces a name that a lasting variable of an earlier clause has. -/
theorem fresh (h : c.KeepsRules f names policy) (hat : c.At before l rest) {l' : Link} {a : BindingId}
    {bda : Binding} (hl : l' ∈ before) (ha : a ∈ l'.ids) (hbda : c.binding? a = some bda)
    (hlast : c.Lasts policy bda) (hb : b ∈ l.ids) (hbd : c.binding? b = some bd) : bda.name ≠ bd.name := by
  intro heq
  have hlt := hat.clause_lt h.formed hl ha hbda
  obtain ⟨bd', hbd', hclause, -⟩ := hat.id h.formed hb
  obtain rfl := Option.mem_unique hbd hbd'
  obtain ⟨-, -, -, hre⟩ := h.scope_nil
  rw [hat] at hre
  have hheld := ((rebindingsIn_eq_nil (rebindingsFrom_eq_nil hre)).1 b hb bd hbd).2
  have hmem : a ∈ [] ++ before.reverse.flatMap Link.ids := by
    simpa using ⟨l', hl, ha⟩
  unfold isHeld at hheld
  have hfree := List.any_eq_false.1 hheld a hmem
  simp only [hbda, heq, beq_self_eq_true, Bool.true_and] at hfree
  cases hkind : bda.kind with
  | range => simp [Binding.isPattern, hkind] at hfree
  | pattern condition =>
    have hpa : bda.isPattern = true := by simp [Binding.isPattern, hkind]
    rcases hlast with hrange | ⟨rfl, hout⟩
    · rw [hkind] at hrange; cases hrange
    cases hpb : bd.isPattern with
    | true =>
      have hne : a ≠ b := by
        rintro rfl
        rw [hbda] at hbd
        obtain rfl := Option.some.inj hbd
        omega
      exact h.patterns_distinct hbda hbd hpa hpb hne heq
    | false =>
      -- the earlier variable has a value here, so its name is held
      have hassigned : f.fact before.length a = .assigned := by
        rw [h.fact hat.lt_size hbda]
        unfold Binding.factIn
        rw [if_neg (by omega), if_neg (by omega), if_pos hout]
      have hlen : 0 + before.reverse.length = before.length := by simp
      rw [hlen] at hfree
      simp [hpb, hassigned, ScopePolicy.letsOut] at hfree

/-- No clause introduces a name twice. -/
theorem distinct (h : c.KeepsRules f names policy) (hat : c.At before l rest) {a : BindingId} {bda : Binding}
    (ha : a ∈ l.ids) (hbda : c.binding? a = some bda) (hb : b ∈ l.ids) (hbd : c.binding? b = some bd)
    (heq : bda.name = bd.name) : a = b := by
  obtain ⟨-, -, -, hre⟩ := h.scope_nil
  rw [hat] at hre
  have hpair := (rebindingsIn_eq_nil (rebindingsFrom_eq_nil hre)).2
  refine Classical.byContradiction fun hne => ?_
  rw [List.pairwise_iff_getElem] at hpair
  obtain ⟨i, hi, rfl⟩ := List.getElem_of_mem ha
  obtain ⟨j, hj, rfl⟩ := List.getElem_of_mem hb
  have hij : i ≠ j := by rintro rfl; exact hne rfl
  rcases Nat.lt_or_gt_of_ne hij with hlt | hlt
  · exact hpair i j hi hj hlt bda bd hbda hbd heq
  · exact hpair j i hj hi hlt bd bda hbd hbda heq.symm

end Chain.KeepsRules

end QueryPipeline
