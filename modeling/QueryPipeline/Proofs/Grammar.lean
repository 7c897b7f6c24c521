import Mathlib
import QueryPipeline.Proofs.Chain
import QueryPipeline.Proofs.Grounded

/-!
# The queries that have a chain

`Query.IsSentence` says what the grammar of queries is: one source, any clauses that are neither source nor selection,
one selection, each with the names that its kind takes and with an expression of the pool.  Place by place, this is
`Clause.Fits`.

If no node of the pool is part of itself, and all that the clauses' expressions lead to is in the pool, a query has a
chain exactly if it is a sentence.  Otherwise the first clause that does not fit its place is blamed
(`Query.chain_iff_sentence`).
-/

namespace QueryPipeline

/-- The pool has a node with the id.  The absent id is the id of no node. -/
def Pool.Has (p : Pool) (i : NodeId) : Prop := i ≠ .absent ∧ i.index < p.size

/-- A clause of the kind takes the names, all of them present. -/
inductive ClauseKind.Takes : ClauseKind → Binder → Prop
  | source {x} (hx : x.isPresent = true) : Takes .source (.one x)
  | generator {x} (hx : x.isPresent = true) : Takes .generator (.one x)
  | filter : Takes .filter .none
  | define {x} (hx : x.isPresent = true) : Takes .define (.one x)
  | unpack {xs} (hxs : ∀ x ∈ xs, x.isPresent = true) : Takes .unpack (.many xs)
  | select : Takes .select .none

/-- The clauses are one source, then clauses that are neither source nor selection, then one selection.  Each has the
names that its kind takes, and an expression of the pool. -/
def Query.IsSentence (q : Query) : Prop :=
  ∃ first inner last, q.clauses = first :: (inner ++ [last]) ∧ first.kind = .source ∧ last.kind = .select ∧
    (∀ cl ∈ inner, cl.kind ∈ [.generator, .filter, .define, .unpack]) ∧
    ∀ cl ∈ q.clauses, cl.kind.Takes cl.binder ∧ q.pool.Has cl.expr

/-- The clause keeps the rules for the place `k` among `count` clauses. -/
structure Clause.Fits (pool : Pool) (count k : Nat) (cl : Clause) : Prop where
  source : cl.kind = .source ↔ k = 0
  select : cl.kind = .select ↔ k + 1 = count
  takes : cl.kind.Takes cl.binder
  has : pool.Has cl.expr

/-! ### One clause -/

private theorem ClauseKind.mem_inner {k : ClauseKind} :
    k ∈ [ClauseKind.generator, .filter, .define, .unpack] ↔ k ≠ .source ∧ k ≠ .select := by
  cases k <;> decide

private theorem Clause.binderFits_iff {cl : Clause} : cl.binderFits = true ↔ cl.kind.Takes cl.binder := by
  unfold binderFits
  generalize cl.kind = kind
  generalize cl.binder = binder
  constructor
  · intro h
    split at h
    · exact .source h
    · exact .generator h
    · exact .define h
    · exact .unpack (List.all_eq_true.1 h)
    · exact .filter
    · exact .select
    · cases h
  · intro h
    cases h with
    | source hx | generator hx | define hx => exact hx
    | unpack hxs => exact List.all_eq_true.2 hxs
    | filter | select => rfl

theorem Pool.has_iff {p : Pool} {i : NodeId} : p.Has i ↔ ¬ (!i.isValid || (p.get? i).isNone) = true := by
  simp [Has, NodeId.isValid, get?, size]

private theorem Clause.grammarFault?_eq_none_iff {pool : Pool} {last k : Nat} {cl : Clause} :
    cl.grammarFault? pool last k = none ↔ cl.Fits pool (last + 1) k := by
  constructor
  · intro h
    obtain ⟨hsource, hselect, hfits, hexpr⟩ := Clause.grammarFault?_eq_none h
    exact ⟨hsource, by rw [hselect, Nat.add_right_cancel_iff], Clause.binderFits_iff.1 hfits, Pool.has_iff.2 hexpr⟩
  · intro h
    have hselect : cl.kind = .select ↔ k = last := h.select.trans Nat.add_right_cancel_iff
    unfold grammarFault?
    rw [if_neg fun hc => hc.2 (h.source.1 hc.1), if_neg fun hc => hc.2 (hselect.1 hc.1),
      if_neg fun hc => hc.2 (h.source.2 hc.1), if_neg fun hc => hc.2 (hselect.2 hc.1),
      if_neg (by rw [Clause.binderFits_iff.2 h.takes]; decide), if_neg (Pool.has_iff.1 h.has)]

/-! ### A row of clauses -/

/-- The fault that is found is at the first clause that has one. -/
theorem grammarFaultFrom?_eq_some {pool : Pool} {last k : Nat} {clauses : List Clause} {r : Rejection}
    (h : grammarFaultFrom? pool last k clauses = some r) :
    ∃ (i : Nat) (cl : Clause) (fault : GrammarFault), clauses[i]? = some cl ∧
      cl.grammarFault? pool last (k + i) = some fault ∧ r = ⟨k + i, cl.span, .malformed fault.message⟩ ∧
      ∀ j < i, ∀ cl', clauses[j]? = some cl' → cl'.grammarFault? pool last (k + j) = none := by
  induction clauses generalizing k with
  | nil => cases h
  | cons cl clauses ih =>
    unfold grammarFaultFrom? at h
    cases hfault : cl.grammarFault? pool last k with
    | some fault =>
      rw [hfault] at h
      obtain rfl := Option.some.inj h
      exact ⟨0, cl, fault, rfl, hfault, rfl, fun j hj => absurd hj (Nat.not_lt_zero j)⟩
    | none =>
      rw [hfault] at h
      obtain ⟨i, cl', fault, hi, hfault', rfl, hfirst⟩ := ih h
      have hplace : ∀ j, k + 1 + j = k + (j + 1) := by omega
      rw [hplace] at hfault' ⊢
      refine ⟨i + 1, cl', fault, hi, hfault', rfl, ?_⟩
      intro j hj cl'' hcl
      cases j with
      | zero =>
        obtain rfl := Option.some.inj hcl
        exact hfault
      | succ j =>
        rw [← hplace]
        exact hfirst j (by omega) cl'' hcl

namespace Query

variable {q : Query}

theorem IsSentence.fits (h : q.IsSentence) {k : Nat} {cl : Clause} (hk : q.clauses[k]? = some cl) :
    cl.Fits q.pool q.clauses.length k := by
  obtain ⟨first, inner, last, hclauses, hfirst, hlast, hinner, hall⟩ := h
  obtain ⟨htakes, hhas⟩ := hall cl (List.mem_of_getElem? hk)
  have hlen : q.clauses.length = inner.length + 2 := by rw [hclauses]; simp
  rw [hlen]
  rw [hclauses] at hk
  cases k with
  | zero =>
    obtain rfl := Option.some.inj hk
    exact ⟨by simp [hfirst], by rw [hfirst]; simp, htakes, hhas⟩
  | succ k =>
    rw [List.getElem?_cons_succ] at hk
    rcases Nat.lt_or_ge k inner.length with hlt | hge
    · rw [List.getElem?_append_left hlt] at hk
      obtain ⟨hsource, hselect⟩ := ClauseKind.mem_inner.1 (hinner cl (List.mem_of_getElem? hk))
      exact ⟨by simp [hsource], by simp [hselect]; omega, htakes, hhas⟩
    · rw [List.getElem?_append_right hge] at hk
      rw [List.getElem?_singleton] at hk
      split_ifs at hk with hzero
      obtain rfl := Option.some.inj hk
      exact ⟨by simp [hlast], by simp [hlast]; omega, htakes, hhas⟩

private theorem isSentence_of_fits (hne : q.clauses ≠ [])
    (hfits : ∀ (k : Nat) (cl : Clause), q.clauses[k]? = some cl → cl.Fits q.pool q.clauses.length k) :
    q.IsSentence := by
  obtain ⟨first, tail, hclauses⟩ := List.exists_cons_of_ne_nil hne
  have hfirst := hfits 0 first (by rw [hclauses]; rfl)
  have hsource := hfirst.source.2 rfl
  rcases List.eq_nil_or_concat' tail with rfl | ⟨inner, last, rfl⟩
  · -- the only clause would have to be the selection as well
    have hselect := hfirst.select.2 (by rw [hclauses]; rfl)
    rw [hsource] at hselect
    cases hselect
  · have hlast := hfits (inner.length + 1) last (by rw [hclauses]; simp)
    refine ⟨first, inner, last, hclauses, hsource, hlast.select.2 (by rw [hclauses]; simp), ?_, ?_⟩
    · intro cl hcl
      obtain ⟨i, hi⟩ := List.getElem?_of_mem hcl
      have hlt : i < inner.length := (List.getElem?_eq_some_iff.1 hi).1
      have hcl := hfits (i + 1) cl (by rw [hclauses, List.getElem?_cons_succ, List.getElem?_append_left hlt, hi])
      refine ClauseKind.mem_inner.2 ⟨?_, ?_⟩
      · intro hkind
        have := hcl.source.1 hkind
        omega
      · intro hkind
        have := hcl.select.1 hkind
        rw [hclauses, List.length_cons, List.length_append, List.length_singleton] at this
        omega
    · intro cl hcl
      obtain ⟨i, hi⟩ := List.getElem?_of_mem hcl
      exact ⟨(hfits i cl hi).takes, (hfits i cl hi).has⟩

/-- The clauses make a sentence exactly if there is one and each fits its place. -/
theorem isSentence_iff : q.IsSentence ↔
    q.clauses ≠ [] ∧ ∀ (k : Nat) (cl : Clause), q.clauses[k]? = some cl → cl.Fits q.pool q.clauses.length k := by
  constructor
  · intro h
    refine ⟨?_, fun k cl hk => h.fits hk⟩
    obtain ⟨first, inner, last, hclauses, -⟩ := h
    rw [hclauses]
    exact List.cons_ne_nil _ _
  · rintro ⟨hne, hfits⟩
    exact isSentence_of_fits hne hfits

private theorem grammarFault?_eq_from (hne : q.clauses ≠ []) :
    q.grammarFault? = grammarFaultFrom? q.pool (q.clauses.length - 1) 0 q.clauses := by
  unfold grammarFault?
  split
  · rename_i hnil
    exact absurd hnil hne
  · rfl

private theorem grammarFault?_eq_none_iff : q.grammarFault? = none ↔ q.IsSentence := by
  rw [isSentence_iff]
  by_cases hne : q.clauses = []
  · simp [grammarFault?, hne]
  · have hlen : q.clauses.length - 1 + 1 = q.clauses.length := Nat.sub_add_cancel (List.length_pos_iff.2 hne)
    rw [grammarFault?_eq_from hne, grammarFaultFrom?_eq_none_iff]
    simp only [Nat.zero_add, Clause.grammarFault?_eq_none_iff, hlen, ne_eq, hne, not_false_eq_true, true_and]

/-- What is wrong with a query is wrong with the first clause that does not fit its place. -/
theorem grammarFault?_eq_some {r : Rejection} (h : q.grammarFault? = some r) :
    (∃ reason, r.cause = .malformed reason) ∧ ((q.clauses = [] ∧ r.clause = 0) ∨
      IsLeast {k | ∃ cl : Clause, q.clauses[k]? = some cl ∧ ¬ cl.Fits q.pool q.clauses.length k} r.clause) := by
  by_cases hne : q.clauses = []
  · simp only [grammarFault?, hne, Option.some.injEq] at h
    subst h
    exact ⟨⟨_, rfl⟩, Or.inl ⟨hne, rfl⟩⟩
  · have hlen : q.clauses.length - 1 + 1 = q.clauses.length := Nat.sub_add_cancel (List.length_pos_iff.2 hne)
    rw [grammarFault?_eq_from hne] at h
    obtain ⟨k, cl, fault, hk, hfault, rfl, hfirst⟩ := grammarFaultFrom?_eq_some h
    simp only [Nat.zero_add] at hfault hfirst ⊢
    refine ⟨⟨_, rfl⟩, Or.inr ⟨⟨cl, hk, ?_⟩, ?_⟩⟩
    · intro hfits
      rw [← hlen] at hfits
      rw [Clause.grammarFault?_eq_none_iff.2 hfits] at hfault
      cases hfault
    · rintro j ⟨cl', hj, hbad⟩
      by_contra hlt
      have hfits := Clause.grammarFault?_eq_none_iff.1 (hfirst j (Nat.lt_of_not_le hlt) cl' hj)
      rw [hlen] at hfits
      exact hbad hfits

end Query

/-! ### Chains -/

private theorem linksFrom_isSome {pool : Pool} {k count : Nat} {clauses : List Clause}
    (h : ∀ cl ∈ clauses, pool.Grounded cl.expr) : (linksFrom pool k count clauses).isSome = true := by
  induction clauses generalizing k count with
  | nil => rfl
  | cons cl clauses ih =>
    have hterm : pool.term? cl.expr = some (pool.unfold cl.expr) :=
      Pool.term?_eq_some.2 ⟨Pool.grounded_iff.1 (h cl (List.mem_cons_self ..)), rfl⟩
    have hrest : ∀ count', ∃ made, linksFrom pool (k + 1) count' clauses = some made :=
      fun _ => Option.isSome_iff_exists.1 (ih fun cl' hcl => h cl' (List.mem_cons_of_mem _ hcl))
    obtain ⟨made, hmade⟩ :=
      hrest (count + (cl.rangeVariables k).length + ((pool.unfold cl.expr).patternVariables k).length)
    simp [linksFrom, hterm, hmade]

/-- If no node of the pool is part of itself, and all that the clauses' expressions lead to is in the pool, a query has
a chain exactly if its clauses make a sentence.  Otherwise the first clause that does not fit its place is blamed, or
the place of the first clause if there is none. -/
theorem Query.chain_iff_sentence {q : Query} (hacyclic : q.pool.Acyclic)
    (hpool : ∀ cl ∈ q.clauses, q.pool.Has cl.expr →
      ∀ j, q.pool.LeadsTo cl.expr j → (q.pool.operands? j).isSome = true) :
    ((∃ c, q.chain = .ok c) ↔ q.IsSentence) ∧
    (¬ q.IsSentence → ∃ k span reason, q.chain = .error (.error (.one ⟨k, span, .malformed reason⟩)) ∧
      ((q.clauses = [] ∧ k = 0) ∨
        IsLeast {k | ∃ cl : Clause, q.clauses[k]? = some cl ∧ ¬ cl.Fits q.pool q.clauses.length k} k)) := by
  refine ⟨⟨?_, ?_⟩, ?_⟩
  · rintro ⟨c, hc⟩
    exact grammarFault?_eq_none_iff.1 (chain_eq_ok hc).1
  · intro h
    have hgrounded : ∀ cl ∈ q.clauses, q.pool.Grounded cl.expr := by
      intro cl hcl
      obtain ⟨_, _, _, _, _, _, _, hall⟩ := h
      exact Pool.grounded_of_acyclic hacyclic (hpool cl hcl (hall cl hcl).2)
    obtain ⟨⟨links, bindings⟩, hlinks⟩ := Option.isSome_iff_exists.1 (linksFrom_isSome hgrounded)
    unfold chain
    rw [grammarFault?_eq_none_iff.2 h, hlinks]
    exact ⟨_, rfl⟩
  · intro h
    obtain ⟨⟨k, span, cause⟩, hr⟩ := Option.ne_none_iff_exists'.1 (mt grammarFault?_eq_none_iff.1 h)
    obtain ⟨⟨reason, rfl⟩, hplace⟩ := grammarFault?_eq_some hr
    refine ⟨k, span, reason, ?_, hplace⟩
    unfold chain
    rw [hr]

/-- Two clauses out of place: `from x in [7] select x where x`. -/
def Query.misplaced : Query where
  pool :=
    { nodes := #[⟨.literal (.int 7), ⟨0, 1⟩⟩, ⟨.row .list ⟨0, 1⟩, ⟨2, 3⟩⟩, ⟨.ident ⟨1⟩, ⟨4, 5⟩⟩]
      lists := #[⟨0⟩] }
  clauses :=
    [⟨.source, ⟨1⟩, .one ⟨1⟩, .object, ⟨0, 1⟩⟩, ⟨.select, ⟨2⟩, .none, .object, ⟨2, 3⟩⟩,
      ⟨.filter, ⟨2⟩, .none, .bool, ⟨4, 5⟩⟩]

/-- The selection is blamed, and not the filter after it. -/
theorem Query.misplaced_blames_first : ¬ Query.misplaced.IsSentence ∧
    IsLeast {k | ∃ cl : Clause, Query.misplaced.clauses[k]? = some cl ∧
      ¬ cl.Fits Query.misplaced.pool Query.misplaced.clauses.length k} 1 := by
  have hacyclic : Query.misplaced.pool.Acyclic := Pool.acyclic_of_lt (by decide)
  have hcomplete : ∀ cl ∈ Query.misplaced.clauses, (Query.misplaced.pool.unfold cl.expr).isComplete = true := by decide
  have hchain : Query.misplaced.chain =
      .error (.error (.one ⟨1, ⟨2, 3⟩, .malformed "`select` must be the last clause"⟩)) := by cbv
  obtain ⟨hiff, hblame⟩ := Query.chain_iff_sentence hacyclic fun cl hcl _ j hj =>
    ((Pool.grounded_iff.2 (hcomplete cl hcl)).of_leadsTo hj).isSome_operands
  have hnot : ¬ Query.misplaced.IsSentence := by
    rw [← hiff, hchain]
    rintro ⟨c, hc⟩
    cases hc
  refine ⟨hnot, ?_⟩
  obtain ⟨k, span, reason, hk, hplace⟩ := hblame hnot
  rw [hchain] at hk
  cases hk
  exact hplace.resolve_left fun hnil => List.cons_ne_nil _ _ hnil.1

end QueryPipeline
