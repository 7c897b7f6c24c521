import QueryPipeline.Proofs.Scope

/-!
# What a pipeline is made of

What is live after a clause is what later clauses use (`mem_used`).  So along a chain that keeps the rules every
carrier holds the variables that are still to be used, each once and under its own name (`Chain.Carries`).

`Chain.rows` are the stages that the clauses become.  The translation of a chain that keeps the rules and has a plan
gives these stages and finds nothing wrong (`Chain.KeepsRules.pipeline_eq`).  `Chain.Lowers` tells the rows one by one,
with what comes in and one case for each kind of row (`Chain.Block`), and `Query.lower_eq_ok` says that an accepted
query has such a pipeline.
-/

namespace QueryPipeline

/-! ### Liveness -/

theorem BindingId.mem_insert {a b : BindingId} {bs : List BindingId} : a ∈ b.insert bs ↔ a = b ∨ a ∈ bs := by
  induction bs with
  | nil => simp [BindingId.insert]
  | cons d bs ih =>
    unfold BindingId.insert
    split
    · simp
    · split
      · rename_i heq
        subst heq
        simp
      · simp only [List.mem_cons, ih]
        exact or_left_comm

private theorem BindingId.insert_pairwise {b : BindingId} {bs : List BindingId}
    (h : bs.Pairwise fun a b => a.index < b.index) : (b.insert bs).Pairwise fun a b => a.index < b.index := by
  induction bs with
  | nil => simp [BindingId.insert]
  | cons d bs ih =>
    rw [List.pairwise_cons] at h
    unfold BindingId.insert
    split
    · rename_i hlt
      rw [List.pairwise_cons, List.pairwise_cons]
      refine ⟨fun a ha => ?_, h.1, h.2⟩
      rcases List.mem_cons.1 ha with rfl | ha
      · exact hlt
      · have := h.1 a ha
        omega
    · rename_i hge
      split
      · rw [List.pairwise_cons]
        exact h
      · rename_i hne
        rw [List.pairwise_cons]
        refine ⟨fun a ha => ?_, ih h.2⟩
        rcases BindingId.mem_insert.1 ha with rfl | ha
        · have hindex : a.index ≠ d.index := fun heq => hne (by cases a; cases d; simpa using heq)
          omega
        · exact h.1 a ha

/-- The bindings in some sets, in increasing order. -/
def used : List (List BindingId) → List BindingId
  | [] => []
  | s :: sets => s.foldr BindingId.insert (used sets)

private theorem mem_foldr_insert {a : BindingId} {s live : List BindingId} :
    a ∈ s.foldr BindingId.insert live ↔ a ∈ s ∨ a ∈ live := by
  induction s with
  | nil => simp
  | cons b s ih => simp [BindingId.mem_insert, ih, or_assoc]

theorem mem_used {a : BindingId} {sets : List (List BindingId)} : a ∈ used sets ↔ ∃ s ∈ sets, a ∈ s := by
  induction sets with
  | nil => simp [used]
  | cons s sets ih => simp [used, mem_foldr_insert, ih]

theorem used_pairwise (sets : List (List BindingId)) : (used sets).Pairwise fun a b => a.index < b.index := by
  induction sets with
  | nil => simp [used]
  | cons s sets ih =>
    unfold used
    induction s with
    | nil => exact ih
    | cons b s ihs => exact BindingId.insert_pairwise ihs

private theorem used_nodup (sets : List (List BindingId)) : (used sets).Nodup :=
  (used_pairwise sets).imp fun hlt heq => by rw [heq] at hlt; omega

/-- What is live after the first clause is what the others use. -/
theorem liveAfter_cons (s : List BindingId) (sets : List (List BindingId)) :
    liveAfter (s :: sets) = used sets :: liveAfter sets := by
  induction sets generalizing s with
  | nil => simp [liveAfter, used]
  | cons next sets ih => rw [liveAfter, ih next, used]

/-! ### Reads of later clauses -/

theorem Carrier.contains_iff {C : Carrier} {b : BindingId} :
    C.contains b = true ↔ ∃ f ∈ C.fields, f.binding = b := by
  simp [Carrier.contains]

namespace Chain

variable {c : Chain} {f : Flow} {names : SymbolTable} {policy : ScopePolicy}
variable {before rest : List Link} {l : Link} {b : BindingId} {bd : Binding}

/-- The bindings that some clauses use of clauses before their own, given the clauses before, latest first. -/
def readsFrom (c : Chain) (before rest : List Link) : List (List BindingId) :=
  (c.usesFrom before rest).map fun us => (readsOf us).map Prod.fst

/-- A later clause uses the binding. -/
def ReadIn (c : Chain) (before rest : List Link) (b : BindingId) : Prop := b ∈ used (c.readsFrom before rest)

/-- One of the clauses introduces the binding. -/
def Introduces (ls : List Link) (b : BindingId) : Prop := ∃ l ∈ ls, b ∈ l.ids

private theorem readsFrom_cons (c : Chain) (before rest : List Link) (l : Link) :
    c.readsFrom before (l :: rest) =
      (readsOf (c.usesOf l before)).map Prod.fst :: c.readsFrom (l :: before) rest := rfl

theorem mem_readsOf {us : List Use} : b ∈ (readsOf us).map Prod.fst ↔ ∃ u ∈ us, u.resolution = .earlier b := by
  constructor
  · intro h
    obtain ⟨⟨b', span⟩, hread, rfl⟩ := List.mem_map.1 h
    obtain ⟨u, hu, hread⟩ := List.mem_filterMap.1 hread
    split at hread
    · rename_i b'' hres
      obtain ⟨rfl, -⟩ := Prod.mk.inj (Option.some.inj hread)
      exact ⟨u, hu, hres⟩
    · cases hread
  · rintro ⟨u, hu, hres⟩
    refine List.mem_map.2 ⟨(b, u.span), List.mem_filterMap.2 ⟨u, hu, ?_⟩, rfl⟩
    rw [hres]

private theorem mem_reads : b ∈ (readsOf (c.usesOf l before)).map Prod.fst ↔
    ∃ t ∈ l.term.preorder, ∃ x a, t.mention? = some (x, a) ∧ c.resolve x l before = .earlier b := by
  rw [mem_readsOf]
  constructor
  · rintro ⟨u, hu, hread⟩
    obtain ⟨t, ht, hm, hres⟩ := mem_usesOf hu
    exact ⟨t, ht, u.name, u.isAssignment, hm, by rw [← hres, hread]⟩
  · rintro ⟨t, ht, x, a, hm, hr⟩
    obtain ⟨u, hu, -, hres, -⟩ := exists_use c before ht hm
    exact ⟨u, hu, by rw [hres, hr]⟩

theorem readIn_cons : c.ReadIn before (l :: rest) b ↔
    b ∈ (readsOf (c.usesOf l before)).map Prod.fst ∨ c.ReadIn (l :: before) rest b := by
  unfold ReadIn
  rw [readsFrom_cons, mem_used, mem_used]
  simp

/-- A binding that later clauses use lasts beyond its clause. -/
theorem KeepsRules.readIn (h : c.KeepsRules f names policy) (hlinks : c.links = before.reverse ++ rest)
    (hb : c.ReadIn before rest b) :
    (∃ before' l' rest', c.At before' l' rest' ∧ b ∈ l'.ids) ∧ ∃ bd, c.binding? b = some bd ∧ c.Lasts policy bd := by
  induction rest generalizing before with
  | nil =>
    obtain ⟨s, hs, -⟩ := mem_used.1 hb
    cases hs
  | cons l rest ih =>
    rcases readIn_cons.1 hb with hb | hb
    · obtain ⟨t, ht, x, a, hm, hr⟩ := mem_reads.1 hb
      obtain ⟨-, l', hl', hid, bd, hbd, -, hlast⟩ := h.earlier hlinks ht hm hr
      obtain ⟨before', rest', hat', -⟩ := Chain.At.of_mem (c := c) hlinks hl'
      exact ⟨⟨before', l', rest', hat', hid⟩, bd, hbd, hlast⟩
    · exact ih (by rw [hlinks]; simp) hb

/-- A binding of the chain belongs to the clauses up to a place if its own clause does. -/
theorem At.introduces_of_clause_le (hat : c.At before l rest) (hc : c.Formed) {before' rest' : List Link} {l' : Link}
    (hat' : c.At before' l' rest') (hb : b ∈ l'.ids) (hbd : c.binding? b = some bd)
    (hle : bd.clause ≤ before.length) : Introduces (l :: before) b := by
  obtain ⟨bd', hbd', hclause, -⟩ := hat'.id hc hb
  obtain rfl := Option.mem_unique hbd hbd'
  refine ⟨l', ?_, hb⟩
  have hget := hat'.getElem?
  rw [hat.links_cons, List.getElem?_append_left (by simp; omega)] at hget
  exact List.mem_reverse.1 (List.mem_of_getElem? hget)

theorem At.clause_le_of_introduces (hat : c.At before l rest) (hc : c.Formed) (hb : Introduces (l :: before) b) :
    ∃ bd, c.binding? b = some bd ∧ bd.clause ≤ before.length := by
  obtain ⟨l', hl', hid⟩ := hb
  rcases List.mem_cons.1 hl' with rfl | hl'
  · obtain ⟨bd, hbd, hclause, -⟩ := hat.id hc hid
    exact ⟨bd, hbd, by omega⟩
  · obtain ⟨before', rest', hat', hlt⟩ := hat.of_mem hl'
    obtain ⟨bd, hbd, hclause, -⟩ := hat'.id hc hid
    exact ⟨bd, hbd, by omega⟩

/-! ### Names of a clause by its kind -/

theorem At.ranges_one (hat : c.At before l rest) (hc : c.Formed)
    (hk : l.kind = .source ∨ l.kind = .generator ∨ l.kind = .define) : l.ranges.ids = [⟨l.ranges.start⟩] := by
  obtain ⟨cl, hof, hfits, -, -⟩ := hc _ _ _ hat
  obtain ⟨pre, post, -, hr, -⟩ := hof.stretches
  rw [hof.kind] at hk
  have hlen := Clause.length_rangeVariables (k := before.length) hfits hk
  rw [hr, hlen]
  rfl

theorem At.ranges_none (hat : c.At before l rest) (hc : c.Formed) (hk : l.kind = .filter) : l.ranges.ids = [] := by
  obtain ⟨cl, hof, hfits, -, -⟩ := hc _ _ _ hat
  obtain ⟨pre, post, -, hr, -⟩ := hof.stretches
  rw [hof.kind] at hk
  unfold Clause.binderFits at hfits
  rw [hk] at hfits
  cases hb : cl.binder with
  | none =>
    have hnone : cl.rangeVariables before.length = [] := by simp [Clause.rangeVariables, hb]
    rw [hr, hnone]
    rfl
  | one x => rw [hb] at hfits; cases hfits
  | many xs => rw [hb] at hfits; cases hfits

/-- A pattern variable lasts only if its clause is a filter that assigns it whenever it holds. -/
theorem At.pattern_lasts (hat : c.At before l rest) (hc : c.Formed) (hb : b ∈ l.patterns.ids)
    (hbd : c.binding? b = some bd) (hlast : c.Lasts policy bd) :
    l.kind = .filter ∧ l.term.condition bd.name = .whenTrue ∧ bd.name ∈ l.term.boundNames := by
  obtain ⟨bd', hbd', hkind, hclause, hname⟩ := hat.pattern_id hc hb
  obtain rfl := Option.mem_unique hbd hbd'
  rcases hlast with hrange | ⟨-, hout⟩
  · rw [hkind] at hrange; cases hrange
  · unfold outlives at hout
    rw [hkind, hclause, hat.getElem?] at hout
    simp only [Option.any_some, Bool.and_eq_true, beq_iff_eq, ClauseKind.gates] at hout
    exact ⟨hout.1, hout.2, hname⟩

/-! ### What a carrier holds -/

/-- The carrier holds lasting variables of the clauses before, each once and as the table has it, and among them all
that the clauses `rest` use. -/
structure Carries (c : Chain) (policy : ScopePolicy) (before rest : List Link) (C : Carrier) : Prop where
  sound : ∀ f ∈ C.fields, Introduces before f.binding ∧
    ∃ bd, c.binding? f.binding = some bd ∧ f.name = bd.name ∧ f.ty = bd.ty ∧ c.Lasts policy bd
  nodup : (C.fields.map Field.binding).Nodup
  complete : ∀ b, c.ReadIn before rest b → Introduces before b → C.contains b = true

theorem Carries.exists_field {C : Carrier} (hC : c.Carries policy before rest C) (hread : c.ReadIn before rest b)
    (hint : Introduces before b) (hbd : c.binding? b = some bd) :
    ∃ fd ∈ C.fields, fd.binding = b ∧ fd.name = bd.name := by
  obtain ⟨fd, hfd, rfl⟩ := Carrier.contains_iff.1 (hC.complete b hread hint)
  obtain ⟨-, bd', hbd', hname, -⟩ := hC.sound fd hfd
  obtain rfl := Option.mem_unique hbd hbd'
  exact ⟨fd, hfd, rfl, hname⟩

/-- A variable of an earlier clause that the clause uses comes in under its name. -/
theorem KeepsRules.exists_field (h : c.KeepsRules f names policy) (hat : c.At before l rest) {C : Carrier}
    (hC : c.Carries policy before (l :: rest) C) {t : Term} {x : Symbol} {a : Bool} (ht : t ∈ l.term.preorder)
    (hm : t.mention? = some (x, a)) (hr : c.resolve x l before = .earlier b) :
    ∃ fd ∈ C.fields, fd.binding = b ∧ fd.name = x := by
  obtain ⟨-, l', hl', hid, bd, hbd, rfl, -⟩ := h.earlier hat ht hm hr
  have hread : c.ReadIn before (l :: rest) b := readIn_cons.2 (Or.inl (mem_reads.2 ⟨t, ht, bd.name, a, hm, hr⟩))
  exact hC.exists_field hread ⟨l', hl', hid⟩ hbd

theorem mem_carrierOf {k : Nat} {ids : List BindingId} {f : Field} :
    f ∈ (c.carrierOf k ids).fields ↔ f.binding ∈ ids ∧
      ∃ bd, c.binding? f.binding = some bd ∧ f.name = bd.name ∧ f.ty = bd.ty := by
  unfold carrierOf
  simp only [List.mem_filterMap, Option.map_eq_some_iff]
  constructor
  · rintro ⟨id, hid, bd, hbd, rfl⟩
    exact ⟨hid, bd, hbd, rfl, rfl⟩
  · rintro ⟨hid, bd, hbd, hname, hty⟩
    exact ⟨f.binding, hid, bd, hbd, by cases f; simp_all⟩

private theorem carrierOf_nodup {k : Nat} {ids : List BindingId} (h : ids.Nodup) :
    ((c.carrierOf k ids).fields.map Field.binding).Nodup := by
  unfold carrierOf
  induction ids with
  | nil => simp
  | cons id ids ih =>
    rw [List.nodup_cons] at h
    cases hbd : c.binding? id with
    | none => simpa [hbd] using ih h.2
    | some bd =>
      simp only [List.filterMap_cons, hbd, Option.map_some, List.map_cons, List.nodup_cons]
      refine ⟨fun hmem => ?_, ih h.2⟩
      obtain ⟨f, hf, heq⟩ := List.mem_map.1 hmem
      have hid := (mem_carrierOf (k := k)).1 hf
      rw [heq] at hid
      exact h.1 hid.1

/-- The carrier planned after a clause: the variables so far that the clauses `rest` use. -/
def planned (c : Chain) (before : List Link) (l : Link) (rest : List Link) : Carrier :=
  c.minimalCarrier before.length (used (c.readsFrom (l :: before) rest))

theorem KeepsRules.mem_planned (h : c.KeepsRules f names policy) (hat : c.At before l rest) {fd : Field} :
    fd ∈ (c.planned before l rest).fields ↔ Introduces (l :: before) fd.binding ∧
      c.ReadIn (l :: before) rest fd.binding ∧
      ∃ bd, c.binding? fd.binding = some bd ∧ fd.name = bd.name ∧ fd.ty = bd.ty := by
  unfold planned minimalCarrier
  rw [mem_carrierOf, List.mem_filter]
  constructor
  · rintro ⟨⟨hread, hle⟩, bd, hbd, hfd⟩
    obtain ⟨⟨before', l', rest', hat', hid⟩, -⟩ := h.readIn hat.links_cons hread
    refine ⟨hat.introduces_of_clause_le h.formed hat' hid hbd ?_, hread, bd, hbd, hfd⟩
    simpa [hbd] using hle
  · rintro ⟨hint, hread, bd, hbd, hfd⟩
    refine ⟨⟨hread, ?_⟩, bd, hbd, hfd⟩
    obtain ⟨bd', hbd', hle⟩ := hat.clause_le_of_introduces h.formed hint
    simpa [hbd'] using hle

/-- What is planned after a clause are exactly the variables so far that later clauses use. -/
theorem KeepsRules.planned_contains (h : c.KeepsRules f names policy) (hat : c.At before l rest) :
    (c.planned before l rest).contains b = true ↔ Introduces (l :: before) b ∧ c.ReadIn (l :: before) rest b := by
  rw [Carrier.contains_iff]
  constructor
  · rintro ⟨fd, hfd, rfl⟩
    obtain ⟨hint, hread, -⟩ := (h.mem_planned hat).1 hfd
    exact ⟨hint, hread⟩
  · rintro ⟨hint, hread⟩
    obtain ⟨bd, hbd, -⟩ := hat.clause_le_of_introduces h.formed hint
    exact ⟨⟨b, bd.name, bd.ty⟩, (h.mem_planned hat).2 ⟨hint, hread, bd, hbd, rfl, rfl⟩, rfl⟩

theorem KeepsRules.carries_planned (h : c.KeepsRules f names policy) (hat : c.At before l rest) :
    c.Carries policy (l :: before) rest (c.planned before l rest) where
  sound fd hfd := by
    obtain ⟨hint, hread, bd, hbd, hname, hty⟩ := (h.mem_planned hat).1 hfd
    obtain ⟨-, bd', hbd', hlast⟩ := h.readIn hat.links_cons hread
    obtain rfl := Option.mem_unique hbd hbd'
    exact ⟨hint, bd, hbd, hname, hty, hlast⟩
  nodup := carrierOf_nodup ((used_nodup _).filter _)
  complete b hread hint := (h.planned_contains hat).2 ⟨hint, hread⟩

/-- A clause none of whose variables is used later hands on what it got. -/
theorem Carries.forward {C : Carrier} (hC : c.Carries policy before (l :: rest) C)
    (hnone : ∀ b ∈ l.ids, ¬ c.ReadIn (l :: before) rest b) : c.Carries policy (l :: before) rest C where
  sound fd hfd := by
    obtain ⟨⟨l', hl', hid⟩, hbd⟩ := hC.sound fd hfd
    exact ⟨⟨l', List.mem_cons_of_mem _ hl', hid⟩, hbd⟩
  nodup := hC.nodup
  complete b hread hint := by
    obtain ⟨l', hl', hid⟩ := hint
    rcases List.mem_cons.1 hl' with rfl | hl'
    · exact absurd hread (hnone b hid)
    · exact hC.complete b (readIn_cons.2 (Or.inr hread)) ⟨l', hl', hid⟩

/-- All that is planned can be made: it comes in, or the clause introduces it. -/
theorem KeepsRules.carrierWithin_eq (h : c.KeepsRules f names policy) (hat : c.At before l rest) {C : Carrier}
    {input : Shape} (hC : c.Carries policy before (l :: rest) C) (hin : input.carrier? = some C) :
    l.carrierWithin input (c.planned before l rest) = c.planned before l rest := by
  have hall : ∀ fd ∈ (c.planned before l rest).fields,
      (l.ids.contains fd.binding || input.carrier?.any (·.contains fd.binding)) = true := by
    intro fd hfd
    obtain ⟨⟨l', hl', hid⟩, hread, -⟩ := (h.mem_planned hat).1 hfd
    rw [Bool.or_eq_true, hin]
    rcases List.mem_cons.1 hl' with rfl | hl'
    · exact Or.inl (List.contains_iff_mem.2 hid)
    · exact Or.inr (hC.complete _ (readIn_cons.2 (Or.inr hread)) ⟨l', hl', hid⟩)
  unfold Link.carrierWithin
  rw [List.filter_eq_self.2 hall]

/-- The elements of the source carry its variable. -/
theorem KeepsRules.carries_source (h : c.KeepsRules f names policy) (hat : c.At [] l rest) :
    c.Carries policy [l] rest (c.carrierOf 0 [⟨l.ranges.start⟩]) := by
  obtain ⟨cl, -, -, hsource, -⟩ := h.formed _ _ _ hat
  have hkind : l.kind = .source := hsource.2 rfl
  have hone := hat.ranges_one h.formed (Or.inl hkind)
  have hstart : (⟨l.ranges.start⟩ : BindingId) ∈ l.ranges.ids := by rw [hone]; simp
  obtain ⟨bd, hbd, hrange, -, -⟩ := hat.range_id h.formed hstart
  refine ⟨fun fd hfd => ?_, carrierOf_nodup (by simp), fun b hread hint => ?_⟩
  · obtain ⟨hmem, bd', hbd', hname, hty⟩ := mem_carrierOf.1 hfd
    obtain hid := List.mem_singleton.1 hmem
    rw [hid, hbd] at hbd'
    obtain rfl := Option.some.inj hbd'
    rw [hid]
    exact ⟨⟨l, by simp, List.mem_append_left _ hstart⟩, bd, hbd, hname, hty, Or.inl hrange⟩
  · obtain ⟨l', hl', hid⟩ := hint
    obtain rfl := List.mem_singleton.1 hl'
    obtain ⟨-, bd', hbd', hlast⟩ := h.readIn (show c.links = [l'].reverse ++ rest by rw [hat]; rfl) hread
    rcases List.mem_append.1 hid with hid | hid
    · rw [hone, List.mem_singleton] at hid
      subst hid
      exact Carrier.contains_iff.2 ⟨⟨_, bd.name, bd.ty⟩, mem_carrierOf.2 ⟨by simp, bd, hbd, rfl, rfl⟩, rfl⟩
    · have hfilter := (hat.pattern_lasts h.formed hid hbd' hlast).1
      rw [hkind] at hfilter
      cases hfilter

/-! ### Stages of a clause -/

/-- The stages of a clause between the source and the selection, and what comes out of them. -/
inductive Block (c : Chain) (before : List Link) (l : Link) (rest : List Link) (input : Shape) :
    List (Stage NodeId) → Shape → Prop
  | generator (hk : l.kind = .generator) :
    Block c before l rest input
      [⟨.flatMap, input, .carrier (c.planned before l rest), .generate l.expr ⟨l.ranges.start⟩, before.length⟩]
      (.carrier (c.planned before l rest))
  | forward (hk : l.kind = .filter) (hnone : ∀ b ∈ l.ids, ¬ c.ReadIn (l :: before) rest b) :
    Block c before l rest input [⟨.filter, input, input, .predicate l.expr, before.length⟩] input
  | guard (hk : l.kind = .filter) (hsome : ∃ b ∈ l.patterns.ids, c.ReadIn (l :: before) rest b) {output : Shape}
    (hout : output = .outcome (c.planned before l rest) (c.planned before l rest).encoding) :
    Block c before l rest input
      [⟨.map, input, output, .guard l.expr, before.length⟩, ⟨.filter, output, output, .rejectAbsent, before.length⟩,
        ⟨.map, output, .carrier (c.planned before l rest), .unwrap, before.length⟩]
      (.carrier (c.planned before l rest))
  | guardLast (hk : l.kind = .filter) (hsome : ∃ b ∈ l.patterns.ids, c.ReadIn (l :: before) rest b) {output : Shape}
    (hout : output = .outcome (c.planned before l rest) (c.planned before l rest).encoding) :
    Block c before l rest input
      [⟨.map, input, output, .guard l.expr, before.length⟩, ⟨.filter, output, output, .rejectAbsent, before.length⟩]
      output
  | define (hk : l.kind = .define) :
    Block c before l rest input
      [⟨.map, input, .carrier (c.planned before l rest), .extend [(⟨l.ranges.start⟩, l.expr)], before.length⟩]
      (.carrier (c.planned before l rest))
  | unpack (hk : l.kind = .unpack) :
    Block c before l rest input
      [⟨.map, input, .carrier (c.planned before l rest),
        .destructure l.expr (l.ranges.ids.zipIdx.filter fun p => (c.planned before l rest).contains p.1),
        before.length⟩]
      (.carrier (c.planned before l rest))

/-- The stages of a clause after the source, given what comes in. -/
def row (c : Chain) (before : List Link) (l : Link) (rest : List Link) (input : Shape) : List (Stage NodeId) :=
  let carrier := c.planned before l rest
  let outcome := Shape.outcome carrier carrier.encoding
  match l.kind with
  | .source => []
  | .generator => [⟨.flatMap, input, .carrier carrier, .generate l.expr ⟨l.ranges.start⟩, before.length⟩]
  | .filter =>
    if l.patterns.ids.any (used (c.readsFrom (l :: before) rest)).contains then
      ⟨.map, input, outcome, .guard l.expr, before.length⟩ ::
        ⟨.filter, outcome, outcome, .rejectAbsent, before.length⟩ ::
        if rest.length == 1 then [] else [⟨.map, outcome, .carrier carrier, .unwrap, before.length⟩]
    else
      [⟨.filter, input, input, .predicate l.expr, before.length⟩]
  | .define => [⟨.map, input, .carrier carrier, .extend [(⟨l.ranges.start⟩, l.expr)], before.length⟩]
  | .unpack =>
    [⟨.map, input, .carrier carrier,
      .destructure l.expr (l.ranges.ids.zipIdx.filter fun p => carrier.contains p.1), before.length⟩]
  | .select => [l.selection before.length input]

/-- The stages of the clauses after the source, row by row. -/
def rows (c : Chain) : (before : List Link) → (input : Shape) → List Link → List (Stage NodeId)
  | _, _, [] => []
  | before, input, l :: rest =>
    let stages := c.row before l rest input
    stages ++ c.rows (l :: before) (outputAfter input stages) rest

/-- The stages of the clauses after the source, given what comes in. -/
inductive Lowers (c : Chain) (policy : ScopePolicy) : List Link → Shape → List Link → List (Stage NodeId) → Prop
  | select {before : List Link} {input : Shape} {l : Link} {C : Carrier} (hin : input.carrier? = some C)
    (hC : c.Carries policy before [l] C) : Lowers c policy before input [l] [l.selection before.length input]
  | step {before rest : List Link} {input output : Shape} {l : Link} {C : Carrier} {stages more : List (Stage NodeId)}
    (hin : input.carrier? = some C) (hC : c.Carries policy before (l :: rest) C)
    (hblock : c.Block before l rest input stages output) (hrest : Lowers c policy (l :: before) output rest more) :
    Lowers c policy before input (l :: rest) (stages ++ more)

/-- What comes out of a clause carries what later clauses use. -/
theorem Block.carries (h : c.KeepsRules f names policy) (hat : c.At before l rest) {input output : Shape}
    {C : Carrier} {stages : List (Stage NodeId)} (hin : input.carrier? = some C)
    (hC : c.Carries policy before (l :: rest) C) (hblock : c.Block before l rest input stages output) :
    ∃ C', output.carrier? = some C' ∧ c.Carries policy (l :: before) rest C' := by
  cases hblock with
  | forward hk hnone => exact ⟨C, hin, hC.forward hnone⟩
  | guardLast hk hsome hout => exact ⟨_, by rw [hout]; rfl, h.carries_planned hat⟩
  | generator | guard | define | unpack => exact ⟨_, rfl, h.carries_planned hat⟩

/-- The translation of a clause is its row. -/
private theorem stagesWithin_eq (h : c.KeepsRules f names policy) (hat : c.At before l rest) {C C₀ : Carrier}
    {input : Shape} {bo : Boundary} (hin : input.carrier? = some C) (hC : c.Carries policy before (l :: rest) C)
    (hbo : c.boundaryAfter before.length C₀ (used (c.readsFrom (l :: before) rest)) l = .ok bo)
    (hsource : l.kind ≠ .source) (hselect : l.kind ≠ .select) :
    l.stagesWithin before.length input (rest.length == 1) bo = .ok (c.row before l rest input) := by
  have hwithin := h.carrierWithin_eq hat hC hin
  unfold boundaryAfter at hbo
  unfold Link.stagesWithin row
  cases hk : l.kind with
  | source => exact absurd hk hsource
  | select => exact absurd hk hselect
  | generator =>
    simp only [hk] at hbo
    obtain rfl := Except.ok.inj hbo
    simp only [planned] at hwithin
    simp only [hat.ranges_one h.formed (Or.inr (Or.inl hk)), planned, hwithin]
  | define =>
    simp only [hk] at hbo
    obtain rfl := Except.ok.inj hbo
    simp only [planned] at hwithin
    simp only [hat.ranges_one h.formed (Or.inr (Or.inr hk)), planned, hwithin, List.map_cons, List.map_nil]
  | unpack =>
    simp only [hk] at hbo
    cases hex : l.extraction before.length (used (c.readsFrom (l :: before) rest)) with
    | error r => rw [hex] at hbo; cases hbo
    | ok ex =>
      rw [hex] at hbo
      obtain rfl := Except.ok.inj hbo
      have hparts : ex.parts.filter (fun p => (c.planned before l rest).contains p.1) =
          l.ranges.ids.zipIdx.filter fun p => (c.planned before l rest).contains p.1 := by
        unfold Link.extraction at hex
        split at hex
        · obtain rfl := Except.ok.inj hex
          rw [List.filter_filter]
          refine List.filter_congr fun p _ => ?_
          -- what is planned is live
          cases hp : (c.planned before l rest).contains p.1 with
          | false => simp
          | true =>
            have hlive : p.1 ∈ used (c.readsFrom (l :: before) rest) := ((h.planned_contains hat).1 hp).2
            simpa using hlive
        · cases hex
      simp only [planned] at hwithin hparts
      simp only [planned, Option.map_some, Option.getD_some, hwithin, hparts]
  | filter =>
    simp only [hk] at hbo
    split at hbo
    · rename_i hany
      obtain rfl := Except.ok.inj hbo
      simp only [planned] at hwithin
      simp only [planned, hwithin, if_pos hany]
    · rename_i hany
      obtain rfl := Except.ok.inj hbo
      simp only [if_neg hany]

private theorem row_block (h : c.KeepsRules f names policy) (hat : c.At before l rest) (input : Shape)
    (hsource : l.kind ≠ .source) (hselect : l.kind ≠ .select) :
    c.Block before l rest input (c.row before l rest input) (outputAfter input (c.row before l rest input)) := by
  unfold row
  cases hk : l.kind with
  | source => exact absurd hk hsource
  | select => exact absurd hk hselect
  | generator => exact .generator hk
  | define => exact .define hk
  | unpack => exact .unpack hk
  | filter =>
    simp only
    split
    · rename_i hany
      obtain ⟨b, hb, hread⟩ := List.any_eq_true.1 hany
      have hsome : ∃ b ∈ l.patterns.ids, c.ReadIn (l :: before) rest b := ⟨b, hb, List.contains_iff_mem.1 hread⟩
      cases rest.length == 1 with
      | true => exact .guardLast hk hsome rfl
      | false => exact .guard hk hsome rfl
    · rename_i hany
      refine .forward hk fun b hb hread => hany ?_
      unfold Link.ids at hb
      rw [hat.ranges_none h.formed hk, List.nil_append] at hb
      exact List.any_eq_true.2 ⟨b, hb, List.contains_iff_mem.2 hread⟩

theorem boundariesFrom_cons {C₀ : Carrier} {l' : Link} {bs : List Boundary}
    (h : c.boundariesFrom before.length C₀
      ((l :: l' :: rest).zip (liveAfter (c.readsFrom before (l :: l' :: rest)))) = .ok bs) :
    ∃ bo later, c.boundaryAfter before.length C₀ (used (c.readsFrom (l :: before) (l' :: rest))) l = .ok bo ∧
      c.boundariesFrom (before.length + 1) bo.carrier
        ((l' :: rest).zip (liveAfter (c.readsFrom (l :: before) (l' :: rest)))) = .ok later ∧ bs = bo :: later := by
  rw [readsFrom_cons, liveAfter_cons, List.zip_cons_cons] at h
  -- the recursion goes on only while two clauses are left
  have hcons : ∃ p ps, (l' :: rest).zip (liveAfter (c.readsFrom (l :: before) (l' :: rest))) = p :: ps := by
    rw [readsFrom_cons, liveAfter_cons, List.zip_cons_cons]
    exact ⟨_, _, rfl⟩
  obtain ⟨p, ps, hps⟩ := hcons
  rw [hps] at h ⊢
  rw [boundariesFrom_two] at h
  obtain ⟨bo, hbo, h⟩ := Except.bind_eq_ok.1 h
  obtain ⟨later, hlater, h⟩ := Except.bind_eq_ok.1 h
  exact ⟨bo, later, hbo, hlater, (Except.ok.inj h).symm⟩

theorem missingReads_eq_nil {k : Nat} {input : Shape} {reads : List (BindingId × Span)}
    (h : ∀ r ∈ reads, input.carrier?.any (·.contains r.1) = true) : c.missingReads names k input reads = some [] := by
  induction reads with
  | nil => rfl
  | cons r reads ih =>
    obtain ⟨id, span⟩ := r
    have hid : input.carrier?.any (·.contains id) = true := h (id, span) (by simp)
    rw [missingReads, if_pos hid]
    exact ih fun r hr => h r (List.mem_cons_of_mem _ hr)

/-- What a clause uses of earlier clauses was introduced by one of them. -/
theorem KeepsRules.readIn_of_mem_reads (h : c.KeepsRules f names policy) (hat : c.At before l rest)
    {r : BindingId × Span} (hr : r ∈ f.reads before.length) :
    c.ReadIn before (l :: rest) r.1 ∧ Introduces before r.1 := by
  unfold Flow.reads at hr
  rw [h.usesIn hat] at hr
  have hid : r.1 ∈ (readsOf (c.usesOf l before)).map Prod.fst := List.mem_map.2 ⟨r, hr, rfl⟩
  obtain ⟨t, ht, x, a, hm, hres⟩ := mem_reads.1 hid
  obtain ⟨-, l', hl', hb, -⟩ := h.earlier hat ht hm hres
  exact ⟨readIn_cons.2 (Or.inl hid), l', hl', hb⟩

/-- All that a clause uses of earlier clauses comes in. -/
private theorem KeepsRules.reads_comeIn (h : c.KeepsRules f names policy) (hat : c.At before l rest) {C : Carrier}
    {input : Shape} (hin : input.carrier? = some C) (hC : c.Carries policy before (l :: rest) C) :
    c.missingReads names before.length input (f.reads before.length) = some [] := by
  refine missingReads_eq_nil fun r hr => ?_
  obtain ⟨hread, hint⟩ := h.readIn_of_mem_reads hat hr
  rw [hin]
  exact hC.complete r.1 hread hint

theorem At.kind_within {l' : Link} (hat : c.At before l (l' :: rest)) (hc : c.Formed) (hbefore : before ≠ []) :
    l.kind ≠ .source ∧ l.kind ≠ .select := by
  obtain ⟨cl, -, -, hsource, hselect⟩ := hc _ _ _ hat
  exact ⟨fun hk => hbefore (hsource.1 hk), fun hk => List.cons_ne_nil _ _ (hselect.1 hk)⟩

private theorem At.kind_last (hat : c.At before l []) (hc : c.Formed) : l.kind = .select := by
  obtain ⟨cl, -, -, -, hselect⟩ := hc _ _ _ hat
  exact hselect.2 rfl

/-- The translation finds nothing wrong, and its stages are the rows of the clauses. -/
theorem KeepsRules.stagesFrom_eq (h : c.KeepsRules f names policy) {plan : Plan} {rest : List Link} (hne : rest ≠ [])
    (hbefore : before ≠ []) {pre bs : List Boundary} {C C₀ : Carrier} {input : Shape}
    (hlinks : c.links = before.reverse ++ rest)
    (hbs : c.boundariesFrom before.length C₀ (rest.zip (liveAfter (c.readsFrom before rest))) = .ok bs)
    (hplan : plan.boundaries = pre ++ bs) (hpre : pre.length = before.length) (hin : input.carrier? = some C)
    (hC : c.Carries policy before rest C) :
    c.stagesFrom f plan names before.length input rest = some (c.rows before input rest, []) := by
  induction rest generalizing before pre bs C C₀ input with
  | nil => exact absurd rfl hne
  | cons l rest ih =>
    have hreads := h.reads_comeIn hlinks hin hC
    cases rest with
    | nil =>
      have hk : l.kind = .select := At.kind_last hlinks h.formed
      simp [stagesFrom, hreads, rows, row, hk]
    | cons l' rest =>
      have hat : c.At before l (l' :: rest) := hlinks
      obtain ⟨hsource, hselect⟩ := hat.kind_within h.formed hbefore
      obtain ⟨bo, later, hbo, hlater, rfl⟩ := boundariesFrom_cons hbs
      have hboundary : plan.boundary? before.length = some bo := by
        unfold Plan.boundary?
        rw [hplan, ← hpre]
        simp
      have hstages : l.stages before.length input ((l' :: rest).length == 1) plan =
          .ok (c.row before l (l' :: rest) input) := by
        unfold Link.stages
        rw [hboundary]
        exact stagesWithin_eq h hat hin hC hbo hsource hselect
      obtain ⟨C', hin', hC'⟩ := (row_block h hat input hsource hselect).carries h hat hin hC
      have hplan' : plan.boundaries = (pre ++ [bo]) ++ later := by rw [hplan]; simp
      have hmore := ih (by simp) (List.cons_ne_nil l before) (by rw [hlinks]; simp) hlater hplan' (by simp [hpre])
        hin' hC'
      rw [List.length_cons] at hmore
      simp only [stagesFrom, hreads, hstages, hmore, Option.bind_eq_bind, Option.bind_some, List.append_nil]
      rfl

private theorem KeepsRules.lowers (h : c.KeepsRules f names policy) {rest : List Link} (hne : rest ≠ [])
    (hbefore : before ≠ []) {C : Carrier} {input : Shape} (hlinks : c.links = before.reverse ++ rest)
    (hin : input.carrier? = some C) (hC : c.Carries policy before rest C) :
    c.Lowers policy before input rest (c.rows before input rest) := by
  induction rest generalizing before C input with
  | nil => exact absurd rfl hne
  | cons l rest ih =>
    cases rest with
    | nil =>
      have hk : l.kind = .select := At.kind_last hlinks h.formed
      have hrows : c.rows before input [l] = [l.selection before.length input] := by simp [rows, row, hk]
      rw [hrows]
      exact .select hin hC
    | cons l' rest =>
      have hat : c.At before l (l' :: rest) := hlinks
      obtain ⟨hsource, hselect⟩ := hat.kind_within h.formed hbefore
      have hblock := row_block h hat input hsource hselect
      obtain ⟨C', hin', hC'⟩ := hblock.carries h hat hin hC
      exact .step hin hC hblock (ih (by simp) (by simp) (by rw [hlinks]; simp) hin' hC')

theorem At.rest_ne_nil (hat : c.At [] l rest) (hc : c.Formed) : rest ≠ [] := by
  obtain ⟨cl, -, -, hsource, hselect⟩ := hc _ _ _ hat
  intro hnil
  have hk := hselect.2 hnil
  rw [hsource.2 rfl] at hk
  cases hk

/-- A plan has the variable of the source first, and then what is planned after each of the other clauses. -/
theorem KeepsRules.plan_eq_ok (h : c.KeepsRules f names policy) {first : Link} (hat : c.At [] first rest)
    {plan : Plan} (hplan : c.plan f = .ok plan) :
    ∃ later, plan.boundaries = ⟨0, c.carrierOf 0 [⟨first.ranges.start⟩], none, none, false⟩ :: later ∧
      c.boundariesFrom [first].length (c.carrierOf 0 [⟨first.ranges.start⟩])
        (rest.zip (liveAfter (c.readsFrom [first] rest))) = .ok later := by
  have hlinks : c.links = first :: rest := hat
  have hsets : f.readSets = c.readsFrom [] (first :: rest) := by
    unfold Flow.readSets Chain.readsFrom
    rw [h.uses, hlinks]
  unfold Chain.plan at hplan
  simp only [hlinks, hsets, List.head?_cons, Option.map_some, Option.toList_some, Chain.readsFrom_cons, liveAfter_cons,
    List.zip_cons_cons, List.drop_succ_cons, List.drop_zero] at hplan
  split at hplan
  · cases hplan
  · rename_i later hlater
    exact ⟨later, by rw [← Except.ok.inj hplan], hlater⟩

/-- A chain that keeps the rules and has a plan has a pipeline, whose stages are the rows of its clauses. -/
theorem KeepsRules.pipeline_eq (h : c.KeepsRules f names policy) {first : Link} (hat : c.At [] first rest)
    {plan : Plan} (hplan : c.plan f = .ok plan) :
    rest ≠ [] ∧ c.pipeline f plan names = .ok ⟨c.pool, first.expr, c.carrierOf 0 [⟨first.ranges.start⟩],
      c.rows [first] (.carrier (c.carrierOf 0 [⟨first.ranges.start⟩])) rest⟩ := by
  have hlinks : c.links = first :: rest := hat
  have hne := hat.rest_ne_nil h.formed
  obtain ⟨later, hboundaries, hlater⟩ := h.plan_eq_ok hat hplan
  have hplan' : plan.boundaries = [⟨0, c.carrierOf 0 [⟨first.ranges.start⟩], none, none, false⟩] ++ later := hboundaries
  have hin : (Shape.carrier (c.carrierOf 0 [⟨first.ranges.start⟩])).carrier? = some _ := rfl
  have hstages := h.stagesFrom_eq hne (List.cons_ne_nil first []) hat.links_cons hlater hplan' rfl hin
    (h.carries_source hat)
  rw [List.length_singleton] at hstages
  refine ⟨hne, ?_⟩
  unfold pipeline Plan.boundary?
  simp only [hlinks, hboundaries, List.getElem?_cons_zero, hstages]
  rfl

end Chain

/-! ### Accepted queries -/

/-- How the pipeline of an accepted query comes about: the chain keeps the rules, the source is the first clause, and
the stages are those of the others. -/
structure Query.Accepted (q : Query) (names : SymbolTable) (policy : ScopePolicy) (c : Chain) (f : Flow)
    (first : Link) (rest : List Link) (p : Pipeline) : Prop where
  chain : q.chain = .ok c
  flow : c.flow names = .ok f
  rules : c.KeepsRules f names policy
  links : c.links = first :: rest
  pool : p.pool = c.pool
  source : p.source = first.expr
  carrier : p.sourceCarrier = c.carrierOf 0 [⟨first.ranges.start⟩]
  rows : p.stages = c.rows [first] (.carrier p.sourceCarrier) rest
  stages : c.Lowers policy [first] (.carrier p.sourceCarrier) rest p.stages

theorem Chain.flow_eq_ok {c : Chain} {f : Flow} {names : SymbolTable} (h : c.flow names = .ok f) :
    f.facts = c.facts ∧ f.uses = c.usesFrom [] c.links := by
  obtain ⟨_, -, h⟩ := Except.bind_eq_ok.1 h
  obtain rfl := Except.ok.inj h
  exact ⟨rfl, rfl⟩

/-- A chain has a first clause. -/
theorem Query.chain_cons {q : Query} {c : Chain} (h : q.chain = .ok c) : ∃ first rest, c.At [] first rest := by
  obtain ⟨hg, bindings, hb, -, -⟩ := chain_eq_ok h
  unfold Query.grammarFault? at hg
  split at hg
  · cases hg
  · rename_i hne
    cases hclauses : q.clauses with
    | nil => exact absurd hclauses hne
    | cons cl clauses =>
      simp only [hclauses, linksFrom, Option.bind_eq_bind, Option.bind_eq_some_iff, Option.some.injEq, Prod.exists,
        Prod.mk.injEq] at hb
      obtain ⟨t, -, links', bindings', -, hlinks, -⟩ := hb
      exact ⟨_, _, hlinks.symm⟩

theorem Chain.analyze_eq_ok {c : Chain} {names : SymbolTable} {policy : ScopePolicy} {f : Flow} {plan : Plan} :
    c.analyze names policy = .ok (f, plan) ↔ c.flow names = .ok f ∧ c.requireScope f names policy = .ok () ∧
      f.requireAssigned names = .ok () ∧ c.plan f = .ok plan := by
  constructor
  · intro h
    obtain ⟨f', hflow, h⟩ := Except.bind_eq_ok.1 h
    obtain ⟨_, hscope, h⟩ := Except.bind_eq_ok.1 h
    obtain ⟨_, hassigned, h⟩ := Except.bind_eq_ok.1 h
    obtain ⟨plan', hplan, h⟩ := Except.bind_eq_ok.1 h
    obtain ⟨rfl, rfl⟩ := Prod.mk.inj (Except.ok.inj h)
    exact ⟨hflow, hscope, hassigned, hplan⟩
  · rintro ⟨hflow, hscope, hassigned, hplan⟩
    unfold analyze
    rw [hflow, Except.bind_ok, hscope, Except.bind_ok, hassigned, Except.bind_ok, hplan]
    rfl

/-- A chain that passes the checks keeps the rules. -/
theorem Query.keepsRules {q : Query} {c : Chain} {f : Flow} {names : SymbolTable} {policy : ScopePolicy}
    (hc : q.chain = .ok c) (hflow : c.flow names = .ok f) (hscope : c.requireScope f names policy = .ok ())
    (hassigned : f.requireAssigned names = .ok ()) : c.KeepsRules f names policy := by
  obtain ⟨hfacts, huses⟩ := Chain.flow_eq_ok hflow
  exact ⟨chain_formed hc, hfacts, huses, Report.check_eq_ok.1 hscope, Report.check_eq_ok.1 hassigned⟩

theorem Query.lower_eq_ok {q : Query} {names : SymbolTable} {policy : ScopePolicy} {p : Pipeline}
    (h : q.lower names policy = .ok p) : ∃ c f first rest, q.Accepted names policy c f first rest p := by
  obtain ⟨c, hc, h⟩ := Except.bind_eq_ok.1 h
  obtain ⟨⟨f, plan⟩, hanalyze, hpipe⟩ := Except.bind_eq_ok.1 h
  obtain ⟨hflow, hscope, hassigned, hplan⟩ := Chain.analyze_eq_ok.1 hanalyze
  have hrules := keepsRules hc hflow hscope hassigned
  obtain ⟨first, rest, hat⟩ := chain_cons hc
  obtain ⟨hne, heq⟩ := hrules.pipeline_eq hat hplan
  have hpipe : c.pipeline f plan names = .ok p := hpipe
  rw [heq] at hpipe
  obtain rfl := Except.ok.inj hpipe
  refine ⟨c, f, first, rest, hc, hflow, hrules, hat, rfl, rfl, rfl, rfl, ?_⟩
  exact hrules.lowers hne (List.cons_ne_nil first []) hat.links_cons rfl (hrules.carries_source hat)

end QueryPipeline
