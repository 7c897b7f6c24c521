import Mathlib
import QueryPipeline.Proofs.Chain
import QueryPipeline.Proofs.Grounded

/-!
# The table of bindings

The clauses of a chain divide its table among them: their stretches, range variables before pattern variables, follow
each other without gaps (`linksFrom_ids`).  What lies in the stretches of a clause is said by the clause and the pool
alone: its range variables are the names it introduces (`Binding.AreRanges`), and its pattern variables are the names
bound by the tests that its expression leads to, each where it comes first in the expression
(`Pool.BindsFirst`).  `Query.table_divided` puts this together.
-/

namespace QueryPipeline

/-! ### First members of each name -/

namespace Symbol

variable {α : Type} {f : α → Option Symbol} {a : α} {l : List α} {x : Symbol}

/-- The members that have a name, the first of each name, in order. -/
def firstNamed (f : α → Option Symbol) (l : List α) : List (Symbol × α) :=
  firstOfEach Prod.fst <| l.filterMap fun a => (f a).map fun x => (x, a)

private theorem firstNamed_cons_of_none (h : f a = none) : firstNamed f (a :: l) = firstNamed f l := by
  simp [firstNamed, h]

private theorem firstNamed_cons_of_some (h : f a = some x) :
    firstNamed f (a :: l) = (x, a) :: (firstNamed f l).filter fun b => b.1 ≠ x := by
  simp [firstNamed, h, firstOfEach]

/-- A name that the first member does not have is found one place further on. -/
private theorem idxOf_cons_of_ne (h : f a ≠ some x) :
    ((a :: l).map f).idxOf (some x) = (l.map f).idxOf (some x) + 1 := by
  rw [List.map_cons, List.idxOf_cons_ne _ h]

private theorem ne_of_mem_filter {b : Symbol × α} (ha : f a = some x)
    (hb : b ∈ (firstNamed f l).filter fun b => b.1 ≠ x) : f a ≠ some b.1 := by
  have hne : b.1 ≠ x := by simpa using (List.mem_filter.1 hb).2
  intro heq
  rw [ha] at heq
  exact hne (Option.some.inj heq).symm

/-- Each is the member at the first place where its name is. -/
theorem getElem?_of_mem_firstNamed {b : Symbol × α} (h : b ∈ firstNamed f l) :
    l[(l.map f).idxOf (some b.1)]? = some b.2 := by
  induction l with
  | nil => cases h
  | cons a l ih =>
    cases ha : f a with
    | none =>
      rw [firstNamed_cons_of_none ha] at h
      rw [idxOf_cons_of_ne (by simp [ha]), List.getElem?_cons_succ, ih h]
    | some x =>
      rw [firstNamed_cons_of_some ha] at h
      rcases List.mem_cons.1 h with rfl | h
      · rw [List.map_cons, ha, List.idxOf_cons_self]
        rfl
      · rw [idxOf_cons_of_ne (ne_of_mem_filter ha h), List.getElem?_cons_succ, ih (List.mem_filter.1 h).1]

/-- They come in the order of their first places. -/
theorem firstNamed_pairwise (f : α → Option Symbol) (l : List α) : (firstNamed f l).Pairwise fun b b' =>
    (l.map f).idxOf (some b.1) < (l.map f).idxOf (some b'.1) := by
  induction l with
  | nil => exact .nil
  | cons a l ih =>
    cases ha : f a with
    | none =>
      rw [firstNamed_cons_of_none ha]
      refine ih.imp ?_
      intro b b' hlt
      rw [idxOf_cons_of_ne (by simp [ha]), idxOf_cons_of_ne (by simp [ha])]
      omega
    | some x =>
      rw [firstNamed_cons_of_some ha, List.pairwise_cons]
      constructor
      · intro b hb
        have hzero : ((a :: l).map f).idxOf (some x) = 0 := by rw [List.map_cons, ha, List.idxOf_cons_self]
        rw [hzero, idxOf_cons_of_ne (ne_of_mem_filter ha hb)]
        omega
      · refine (ih.filter _).imp_of_mem ?_
        intro b b' hb hb' hlt
        rw [idxOf_cons_of_ne (ne_of_mem_filter ha hb), idxOf_cons_of_ne (ne_of_mem_filter ha hb')]
        omega

end Symbol

/-! ### The tests of an expression -/

namespace Pool

variable {p : Pool} {i j : NodeId} {depth : Nat} {u : Term}

/-- The variable that the node binds, if it is a test that names one. -/
def bound? (p : Pool) (j : NodeId) : Option Symbol := (p.get? j).bind fun n => n.form.bound?

/-- The static type of the variable that the node binds. -/
def boundTy? (p : Pool) (j : NodeId) : Option Ty := (p.get? j).map fun n => n.form.boundTy

/-- The nodes of an expression, each before its operands. -/
def preorder (p : Pool) (i : NodeId) : List NodeId := (p.unfold i).preorder.map Term.id

/-- The first place among the nodes of an expression where a test binds the name. -/
def firstTest (p : Pool) (i : NodeId) (x : Symbol) : Nat := ((p.preorder i).map p.bound?).idxOf (some x)

/-- The bindings are those of the names that tests in the expression bind: one for each name, in the order in which the
names are first bound, with the type from there. -/
structure BindsFirst (p : Pool) (i : NodeId) (bds : List Binding) : Prop where
  nodup : (bds.map Binding.name).Nodup
  mem_iff : ∀ x, x ∈ bds.map Binding.name ↔ ∃ j, p.LeadsTo i j ∧ p.bound? j = some x
  ordered : bds.Pairwise fun b b' => p.firstTest i b.name < p.firstTest i b'.name
  typed : ∀ b ∈ bds, ∃ j, (p.preorder i)[p.firstTest i b.name]? = some j ∧ p.bound? j = some b.name ∧
    p.boundTy? j = some b.ty
  isPattern : ∀ b ∈ bds, b.isPattern = true

/-- The root of an unfolded node is that node. -/
theorem root_unfoldTo (h : (p.unfoldTo depth i).isComplete = true) :
    (p.unfoldTo depth i).id = i ∧ (p.unfoldTo depth i).bound? = p.bound? i ∧
      p.boundTy? i = some (p.unfoldTo depth i).boundTy := by
  cases depth with
  | zero => cases h
  | succ depth =>
    unfold unfoldTo at h ⊢
    unfold bound? boundTy?
    cases hn : p.get? i with
    | none =>
      rw [hn] at h
      cases h
    | some n =>
      rw [hn] at h
      cases hf : n.form with
      | row kind s =>
        cases hs : p.slice? s with
        | none =>
          simp only [hf, hs] at h
          cases h
        | some is => simp [hf, hs, Term.id, Term.origin, Term.bound?, Term.boundTy, Form.bound?, Form.boundTy]
      | _ => simp [hf, Term.id, Term.origin, Term.bound?, Term.boundTy, Form.bound?, Form.boundTy]

/-- The nodes of an unfolded expression are those of the pool with their ids. -/
theorem bound?_of_mem_preorder (h : (p.unfoldTo depth i).isComplete = true) (hu : u ∈ (p.unfoldTo depth i).preorder) :
    u.bound? = p.bound? u.id ∧ p.boundTy? u.id = some u.boundTy := by
  induction depth generalizing i with
  | zero => cases h
  | succ depth ih =>
    rcases Term.mem_preorder_iff.1 hu with rfl | ⟨e, he, hu⟩
    · obtain ⟨hid, hbound, hty⟩ := root_unfoldTo h
      rw [hid]
      exact ⟨hbound, hty⟩
    · obtain ⟨is, hi, his⟩ := isComplete_unfoldTo.1 h
      rw [operands_unfoldTo, hi, Option.getD_some] at he
      obtain ⟨j, hj, rfl⟩ := List.mem_map.1 he
      exact ih (his j hj) hu

/-- The nodes of an unfolded expression are the ones it leads to. -/
theorem mem_preorder_unfoldTo (h : (p.unfoldTo depth i).isComplete = true) :
    j ∈ (p.unfoldTo depth i).preorder.map Term.id ↔ p.LeadsTo i j := by
  induction depth generalizing i with
  | zero => cases h
  | succ depth ih =>
    obtain ⟨is, hi, his⟩ := isComplete_unfoldTo.1 h
    have hoperands : (p.unfoldTo (depth + 1) i).operands = is.map (p.unfoldTo depth) := by
      rw [operands_unfoldTo, hi, Option.getD_some]
    constructor
    · intro hj
      obtain ⟨u, hu, rfl⟩ := List.mem_map.1 hj
      rcases Term.mem_preorder_iff.1 hu with rfl | ⟨e, he, hu⟩
      · rw [(root_unfoldTo h).1]
        exact .refl
      · rw [hoperands] at he
        obtain ⟨k, hk, rfl⟩ := List.mem_map.1 he
        exact .head ⟨is, hi, hk⟩ ((ih (his k hk)).1 (List.mem_map_of_mem hu))
    · intro hj
      rcases Relation.ReflTransGen.cases_head hj with rfl | ⟨k, ⟨is', hi', hk⟩, hkj⟩
      · exact List.mem_map.2 ⟨_, Term.self_mem_preorder _, (root_unfoldTo h).1⟩
      · obtain rfl := Option.mem_unique hi hi'
        obtain ⟨u, hu, rfl⟩ := List.mem_map.1 ((ih (his k hk)).2 hkj)
        have he : p.unfoldTo depth k ∈ (p.unfoldTo (depth + 1) i).operands := by
          rw [hoperands]
          exact List.mem_map_of_mem hk
        exact List.mem_map_of_mem (Term.mem_preorder_of_operand he hu)

private theorem map_bound?_preorder (h : (p.unfold i).isComplete = true) :
    (p.preorder i).map p.bound? = (p.unfold i).preorder.map Term.bound? := by
  rw [preorder, List.map_map]
  exact List.map_congr_left fun u hu => (bound?_of_mem_preorder h hu).1.symm

private theorem firstTests_unfold (p : Pool) (i : NodeId) :
    (p.unfold i).firstTests = Symbol.firstNamed Term.bound? (p.unfold i).preorder := by
  rw [Term.firstTests, Term.walk_eq]
  rfl

private theorem mem_boundNames_unfold (h : (p.unfold i).isComplete = true) {x : Symbol} :
    x ∈ (p.unfold i).boundNames ↔ ∃ j, p.LeadsTo i j ∧ p.bound? j = some x := by
  rw [Term.boundNames, Term.walk_eq, List.mem_filterMap]
  constructor
  · rintro ⟨u, hu, hx⟩
    refine ⟨u.id, (mem_preorder_unfoldTo h).1 (List.mem_map_of_mem hu), ?_⟩
    rw [← (bound?_of_mem_preorder h hu).1, hx]
  · rintro ⟨j, hj, hx⟩
    obtain ⟨u, hu, rfl⟩ := List.mem_map.1 ((mem_preorder_unfoldTo h).2 hj)
    exact ⟨u, hu, by rw [(bound?_of_mem_preorder h hu).1, hx]⟩

private theorem bindsFirst_patternVariables (h : (p.unfold i).isComplete = true) (k : Nat) :
    p.BindsFirst i ((p.unfold i).patternVariables k) where
  nodup := by
    rw [Term.patternVariables, List.map_map]
    exact Symbol.firstOfEach_nodup Prod.fst _
  mem_iff := by
    intro x
    rw [← mem_boundNames_unfold h, List.mem_map]
    constructor
    · rintro ⟨b, hb, rfl⟩
      exact (Term.mem_patternVariables hb).2.2
    · intro hx
      exact Term.exists_patternVariable hx
  ordered := by
    rw [Term.patternVariables, List.pairwise_map, firstTests_unfold]
    refine (Symbol.firstNamed_pairwise _ _).imp ?_
    intro b b' hlt
    rwa [firstTest, firstTest, map_bound?_preorder h]
  typed := by
    intro b hb
    obtain ⟨⟨x, u⟩, hmem, rfl⟩ := List.mem_map.1 hb
    rw [firstTests_unfold] at hmem
    have hplace := Symbol.getElem?_of_mem_firstNamed hmem
    have hu := List.mem_of_getElem? hplace
    obtain ⟨hbound, hty⟩ := bound?_of_mem_preorder h hu
    refine ⟨u.id, ?_, ?_, hty⟩
    · rw [firstTest, map_bound?_preorder h, preorder, List.getElem?_map, hplace, Option.map_some]
    · obtain ⟨w, -, hw⟩ := List.mem_filterMap.1 (Symbol.mem_of_mem_firstOfEach hmem)
      obtain ⟨y, hy, heq⟩ := Option.map_eq_some_iff.1 hw
      obtain ⟨rfl, rfl⟩ := Prod.mk.inj heq
      rw [← hbound, hy]
  isPattern := by
    intro b hb
    rw [Binding.isPattern, (Term.mem_patternVariables hb).1]

end Pool

/-! ### The names of a clause -/

/-- The types of the names, for a value of the given type: if there are several, each is a part of it. -/
def Binder.types (ty : Ty) : Binder → List Ty
  | none => []
  | one _ => [ty]
  | many xs => (List.range xs.length).map ty.part

/-- The bindings are those of the names that the clause introduces, from left to right. -/
structure Binding.AreRanges (cl : Clause) (bds : List Binding) : Prop where
  names : bds.map Binding.name = cl.binder.names
  types : bds.map Binding.ty = cl.binder.types cl.ty
  kind : ∀ b ∈ bds, b.kind = .range

private theorem Clause.areRanges_rangeVariables (k : Nat) (cl : Clause) :
    Binding.AreRanges cl (cl.rangeVariables k) where
  names := by
    unfold rangeVariables
    cases cl.binder with
    | none | one x => rfl
    | many xs =>
      rw [List.map_map]
      exact List.zipIdx_map_fst 0 xs
  types := by
    unfold rangeVariables
    cases cl.binder with
    | none | one x => rfl
    | many xs =>
      rw [List.map_map, Binder.types, List.range_eq_range', ← List.zipIdx_map_snd 0 xs, List.map_map]
      rfl
  kind := fun _ hb => (Clause.mem_rangeVariables hb).1

private theorem Clause.length_rangeVariables_eq (k : Nat) (cl : Clause) :
    (cl.rangeVariables k).length = cl.binder.names.length := by
  rw [← (cl.areRanges_rangeVariables k).names, List.length_map]

/-! ### Stretches without gaps -/

namespace BindingRange

private theorem ids_ofCount {start n : Nat} (h : n ≤ maxListLength) :
    (ofCount start n).ids = (List.range' start n).map BindingId.mk := by
  rw [ids, ofCount, Nat.min_eq_left h]

/-- A stretch of the table reads what lies there. -/
theorem map_ids (pre post : List Binding) {mid : List Binding} (h : mid.length ≤ maxListLength) :
    (ofCount pre.length mid.length).ids.map (fun b => (pre ++ mid ++ post)[b.index]?) = mid.map some := by
  rw [ids_ofCount h, List.map_map]
  refine List.ext_getElem (by simp) ?_
  intro i hi hi'
  have hlt : i < mid.length := by simpa using hi'
  rw [List.getElem_map, List.getElem_map, List.getElem_range', Function.comp_apply, Nat.one_mul]
  dsimp only
  rw [List.append_assoc, List.getElem?_append_right (by omega), List.getElem?_append_left (by omega),
    Nat.add_sub_cancel_left, List.getElem?_eq_getElem hlt]

end BindingRange

theorem linksFrom_ids {pool : Pool} {k count : Nat} {clauses : List Clause} {links : List Link}
    {bindings : List Binding} (h : linksFrom pool k count clauses = some (links, bindings))
    (hranges : ∀ cl ∈ clauses, cl.binder.names.length ≤ maxListLength)
    (hpatterns : ∀ l ∈ links, l.term.firstTests.length ≤ maxListLength) :
    links.flatMap Link.ids = (List.range' count bindings.length).map BindingId.mk := by
  induction clauses generalizing k count links bindings with
  | nil =>
    simp only [linksFrom, Option.some.injEq, Prod.mk.injEq] at h
    obtain ⟨rfl, rfl⟩ := h
    rfl
  | cons cl clauses ih =>
    simp only [linksFrom, Option.bind_eq_bind, Option.bind_eq_some_iff, Option.some.injEq, Prod.exists,
      Prod.mk.injEq] at h
    obtain ⟨t, ht, links', bindings', h', rfl, rfl⟩ := h
    have hrest := ih h' (fun cl' hcl => hranges cl' (List.mem_cons_of_mem _ hcl))
      (fun l hl => hpatterns l (List.mem_cons_of_mem _ hl))
    have hrange : (cl.rangeVariables k).length ≤ maxListLength := by
      rw [Clause.length_rangeVariables_eq]
      exact hranges cl (List.mem_cons_self ..)
    have hpattern : (t.patternVariables k).length ≤ maxListLength := by
      rw [Term.patternVariables, List.length_map]
      exact hpatterns _ (List.mem_cons_self ..)
    rw [List.flatMap_cons, hrest, Link.ids, BindingRange.ids_ofCount hrange, BindingRange.ids_ofCount hpattern,
      ← List.map_append, ← List.map_append]
    congr 1
    rw [List.range'_append_1, Nat.add_assoc, List.range'_append_1, List.length_append, List.length_append]

/-- If no clause has too many names, the stretches of the clauses, range variables before pattern variables, are the
whole table in order.  Every binding knows its clause; the range variables of a clause are the names it introduces; and
its pattern variables are the names bound by the tests that its expression leads to, in the order of their first
places. -/
theorem Query.table_divided {q : Query} {c : Chain} (h : q.chain = .ok c)
    (hranges : ∀ cl ∈ q.clauses, cl.binder.names.length ≤ maxListLength) (hpatterns : c.PatternsFit) :
    c.links.flatMap Link.ids = c.allIds ∧ c.links.length = q.clauses.length ∧
    ∀ (k : Nat) (l : Link) (cl : Clause), c.links[k]? = some l → q.clauses[k]? = some cl →
      ∃ ranges patterns : List Binding,
        l.ranges.ids.map c.binding? = ranges.map some ∧ l.patterns.ids.map c.binding? = patterns.map some ∧
        (∀ b ∈ ranges ++ patterns, b.clause = k) ∧ Binding.AreRanges cl ranges ∧
        q.pool.BindsFirst cl.expr patterns := by
  obtain ⟨-, bindings, hlinks, hpool, htable⟩ := chain_eq_ok h
  refine ⟨?_, linksFrom_length hlinks, ?_⟩
  · rw [linksFrom_ids hlinks hranges hpatterns, Chain.allIds, htable, List.size_toArray, List.range_eq_range']
  · intro k l cl hl hcl
    obtain ⟨before, rest, hat, rfl⟩ := Chain.exists_at hl
    obtain ⟨cl', hcl', hof⟩ := chain_link h hat
    obtain rfl := Option.mem_unique hcl hcl'
    obtain ⟨pre, post, hsplit, hr, hp⟩ := hof.stretches
    rw [hpool] at hof
    obtain ⟨hcomplete, hterm⟩ := Pool.term?_eq_some.1 hof.term
    have hread : c.binding? = fun b => c.bindings.toList[b.index]? := funext c.binding?_eq
    have hrange : (cl.rangeVariables before.length).length ≤ maxListLength := by
      rw [Clause.length_rangeVariables_eq]
      exact hranges cl (List.mem_of_getElem? hcl)
    have hpattern : (l.term.patternVariables before.length).length ≤ maxListLength := by
      rw [Term.patternVariables, List.length_map]
      exact hpatterns l hat.mem_links
    refine ⟨cl.rangeVariables before.length, l.term.patternVariables before.length, ?_, ?_, ?_,
      cl.areRanges_rangeVariables _, ?_⟩
    · rw [hread, hsplit, hr]
      have hids := BindingRange.map_ids pre (l.term.patternVariables before.length ++ post) hrange
      simpa using hids
    · rw [hread, hsplit, hp]
      have hids := BindingRange.map_ids (pre ++ cl.rangeVariables before.length) post hpattern
      simpa using hids
    · intro b hb
      rcases List.mem_append.1 hb with hb | hb
      · exact (Clause.mem_rangeVariables hb).2.1
      · exact (Term.mem_patternVariables hb).2.1
    · rw [← hterm]
      exact Pool.bindsFirst_patternVariables hcomplete _

/-- Names from a row and from tests, one of them tested again:
`from x in [(7, 7)] let (a, b) = x where (a is str j || a is int i) && a is int j select b`. -/
def Query.destructured : Query where
  pool :=
    { nodes := #[⟨.literal (.int 7), ⟨0, 1⟩⟩, ⟨.row .tuple ⟨0, 2⟩, ⟨2, 3⟩⟩, ⟨.row .list ⟨2, 1⟩, ⟨4, 5⟩⟩,
        ⟨.ident ⟨1⟩, ⟨6, 7⟩⟩, ⟨.ident ⟨2⟩, ⟨8, 9⟩⟩, ⟨.test (.hasType .str) ⟨4⟩ ⟨5⟩, ⟨10, 11⟩⟩,
        ⟨.test (.hasType .int) ⟨4⟩ ⟨4⟩, ⟨12, 13⟩⟩, ⟨.connective .or ⟨5⟩ ⟨6⟩, ⟨14, 15⟩⟩,
        ⟨.test (.hasType .int) ⟨4⟩ ⟨5⟩, ⟨16, 17⟩⟩, ⟨.connective .and ⟨7⟩ ⟨8⟩, ⟨18, 19⟩⟩, ⟨.ident ⟨3⟩, ⟨20, 21⟩⟩]
      lists := #[⟨0⟩, ⟨0⟩, ⟨1⟩] }
  clauses :=
    [⟨.source, ⟨2⟩, .one ⟨1⟩, .tuple [.int, .int], ⟨0, 1⟩⟩,
      ⟨.unpack, ⟨3⟩, .many [⟨2⟩, ⟨3⟩], .tuple [.int, .int], ⟨2, 3⟩⟩, ⟨.filter, ⟨9⟩, .none, .bool, ⟨4, 5⟩⟩,
      ⟨.select, ⟨10⟩, .none, .int, ⟨6, 7⟩⟩]

/-- The name `j` comes before `i`, with the type of its first test. -/
theorem Query.destructured_table_divided : ∃ c, Query.destructured.chain = .ok c ∧ c.PatternsFit ∧
    (∀ cl ∈ Query.destructured.clauses, cl.binder.names.length ≤ maxListLength) ∧
    c.links.flatMap Link.ids = [⟨0⟩, ⟨1⟩, ⟨2⟩, ⟨3⟩, ⟨4⟩] ∧
    ∃ patterns, Query.destructured.pool.BindsFirst ⟨9⟩ patterns ∧
      patterns.map (fun b => (b.name, b.ty)) = [(⟨5⟩, .str), (⟨4⟩, .int)] := by
  obtain ⟨c, hc⟩ : ∃ c, Query.destructured.chain = .ok c := ⟨_, rfl⟩
  have hfit : Query.destructured.chain.toOption.map (fun c => decide c.PatternsFit) = some true := by cbv
  have hids : Query.destructured.chain.toOption.map (fun c => c.allIds) = some [⟨0⟩, ⟨1⟩, ⟨2⟩, ⟨3⟩, ⟨4⟩] := by cbv
  have hread : (Query.destructured.chain.toOption.bind fun c => (c.links[2]?).map fun l =>
      l.patterns.ids.map fun b => (c.binding? b).map fun b => (b.name, b.ty)) =
      some [some (⟨5⟩, .str), some (⟨4⟩, .int)] := by cbv
  rw [hc] at hfit hids hread
  simp only [Except.toOption, Option.map_some, Option.some.injEq, decide_eq_true_eq] at hfit hids
  simp only [Except.toOption, Option.bind_some] at hread
  obtain ⟨l, hl, hread⟩ := Option.map_eq_some_iff.1 hread
  have hranges : ∀ cl ∈ Query.destructured.clauses, cl.binder.names.length ≤ maxListLength := by decide
  obtain ⟨hflat, -, hclauses⟩ := Query.table_divided hc hranges hfit
  obtain ⟨ranges, patterns, -, hpatterns, -, -, hbinds⟩ := hclauses 2 l _ hl rfl
  have hmap : (patterns.map fun b => (b.name, b.ty)).map some = [(⟨5⟩, .str), (⟨4⟩, .int)].map some := by
    have hboth := congrArg (List.map (Option.map fun b : Binding => (b.name, b.ty))) hpatterns
    rw [List.map_map, List.map_map] at hboth
    rw [List.map_map]
    exact hboth.symm.trans hread
  exact ⟨c, hc, hfit, hranges, hflat.trans hids, patterns, hbinds,
    List.map_injective_iff.2 (Option.some_injective _) hmap⟩

end QueryPipeline
