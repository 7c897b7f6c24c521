import Mathlib
import QueryPipeline.Proofs.Ambiguity
import QueryPipeline.Proofs.BindingTable
import QueryPipeline.Proofs.Postordered
import QueryPipeline.Proofs.Sharing

/-!
# Traversals with a stack

The nodes of an expression can be listed without unfolding it to a term: take the id on top of a stack, and put its
operands there, the first one on top.  `Pool.stackWalk` lists an id when it takes it, so before its operands;
`Pool.stackSettle` puts it back with a mark below its operands and lists it when it meets the mark.  Nothing says that
these loops end, and a node that is shared is taken again each time, so that neither the stack nor the pool tells how
long they go on.  A loop is therefore the partial function `Stack.drain`.

What carries the proofs is that an entry of the stack is worked off before anything below it is looked at
(`Stack.WorksOff`).  Hence the loops end exactly on grounded expressions, with the nodes of the unfolded term
(`Pool.stackWalk_eq`, `Pool.stackSettle_eq`).  A node is listed once for each place of that term where it stands
(`Term.count_preorder`).  In a pool in postorder all expressions are grounded (`Pool.traversals_recursive`).
-/

namespace QueryPipeline

/-! ### Places of a term, listed -/

namespace Term

variable {t : Term} {ts : List Term} {place : List Nat}

mutual

/-- The places of the term, each before the places below it, from left to right. -/
def places : Term → List (List Nat)
  | hole | literal _ _ | ident _ _ => [[]]
  | connective _ _ l r | operator _ _ l r => [] :: ((places l).map (0 :: ·) ++ (places r).map (1 :: ·))
  | not _ e | neg _ e | test _ _ e _ | assign _ _ e | part _ e _ => [] :: (places e).map (0 :: ·)
  | row _ _ items => [] :: placesBelow items

/-- The places of the terms, below a node that has them as operands. -/
def placesBelow : List Term → List (List Nat)
  | [] => []
  | t :: ts => (places t).map (0 :: ·) ++ (placesBelow ts).map (List.modifyHead (· + 1))

end

private theorem places_eq (t : Term) : t.places = [] :: placesBelow t.operands := by
  cases t <;> simp [places, operands, placesBelow, Function.comp_def]

private theorem mem_placesBelow :
    place ∈ placesBelow ts ↔ ∃ k below t, place = k :: below ∧ ts[k]? = some t ∧ below ∈ t.places := by
  induction ts generalizing place with
  | nil => simp [placesBelow]
  | cons t ts ih =>
    rw [placesBelow, List.mem_append, List.mem_map, List.mem_map]
    constructor
    · rintro (⟨below, hbelow, rfl⟩ | ⟨place, hplace, rfl⟩)
      · exact ⟨0, below, t, rfl, rfl, hbelow⟩
      · obtain ⟨k, below, u, rfl, hu, hbelow⟩ := ih.1 hplace
        exact ⟨k + 1, below, u, rfl, hu, hbelow⟩
    · rintro ⟨k, below, u, rfl, hu, hbelow⟩
      cases k with
      | zero =>
        obtain rfl := Option.some.inj hu
        exact Or.inl ⟨below, hbelow, rfl⟩
      | succ k => exact Or.inr ⟨k :: below, ih.2 ⟨k, below, u, rfl, hu, hbelow⟩, rfl⟩

private theorem mem_places : place ∈ t.places ↔ (t.at? place).isSome = true := by
  induction place generalizing t with
  | nil => simp [places_eq, at?]
  | cons k below ih =>
    rw [places_eq, List.mem_cons, mem_placesBelow, Option.isSome_iff_exists]
    constructor
    · rintro (h | ⟨_, _, u, ⟨⟩, hu, hbelow⟩)
      · cases h
      · obtain ⟨v, hv⟩ := Option.isSome_iff_exists.1 (ih.1 hbelow)
        exact ⟨v, at?_cons.2 ⟨u, hu, hv⟩⟩
    · rintro ⟨v, hv⟩
      obtain ⟨u, hu, hv⟩ := at?_cons.1 hv
      exact Or.inr ⟨k, below, u, rfl, hu, ih.2 (Option.isSome_iff_exists.2 ⟨v, hv⟩)⟩

private theorem nodup_placesBelow (h : ∀ t ∈ ts, t.places.Nodup) : (placesBelow ts).Nodup := by
  induction ts with
  | nil => exact List.nodup_nil
  | cons t ts ih =>
    have hfirst : ((places t).map (0 :: ·)).Nodup := (h t (by simp)).map List.cons_injective
    have hshift : ∀ a ∈ placesBelow ts, ∀ b ∈ placesBelow ts, a.modifyHead (· + 1) = b.modifyHead (· + 1) → a = b := by
      intro a ha b hb hab
      obtain ⟨k, below, -, rfl, -⟩ := mem_placesBelow.1 ha
      obtain ⟨l, below', -, rfl, -⟩ := mem_placesBelow.1 hb
      simpa using hab
    have hrest : ((placesBelow ts).map (List.modifyHead (· + 1))).Nodup :=
      (ih fun u hu => h u (by simp [hu])).map_on hshift
    refine List.nodup_append.2 ⟨hfirst, hrest, ?_⟩
    intro a ha b hb hab
    obtain ⟨below, -, rfl⟩ := List.mem_map.1 ha
    obtain ⟨c, hc, rfl⟩ := List.mem_map.1 hb
    obtain ⟨k, below', -, rfl, -⟩ := mem_placesBelow.1 hc
    simp at hab

private theorem nodup_places (t : Term) : t.places.Nodup := by
  induction t using operandInduction with
  | step t ih =>
    rw [places_eq]
    refine List.nodup_cons.2 ⟨?_, nodup_placesBelow ih⟩
    intro h
    obtain ⟨k, below, u, h, -⟩ := mem_placesBelow.1 h
    cases h

/-- The node at a place below a node that has the terms as operands. -/
private def below? (ts : List Term) : List Nat → Option Term
  | [] => none
  | k :: place => (ts[k]?).bind fun t => t.at? place

private theorem map_below?_placesBelow (h : ∀ t ∈ ts, t.places.map t.at? = t.preorder.map some) :
    (placesBelow ts).map (below? ts) = (preorders ts).map some := by
  induction ts with
  | nil => rfl
  | cons t ts ih =>
    have hfirst : (t.places.map (0 :: ·)).map (below? (t :: ts)) = t.preorder.map some := by
      rw [List.map_map, ← h t (by simp)]
      rfl
    have hrest : ((placesBelow ts).map (List.modifyHead (· + 1))).map (below? (t :: ts)) = (preorders ts).map some := by
      rw [List.map_map, ← ih fun u hu => h u (by simp [hu])]
      refine List.map_congr_left fun place hplace => ?_
      obtain ⟨k, below, u, rfl, -⟩ := mem_placesBelow.1 hplace
      simp [below?]
    rw [placesBelow, preorders, List.map_append, List.map_append, hfirst, hrest]

private theorem map_at?_places (t : Term) : t.places.map t.at? = t.preorder.map some := by
  induction t using operandInduction with
  | step t ih =>
    have hbelow : (placesBelow t.operands).map t.at? = (placesBelow t.operands).map (below? t.operands) := by
      refine List.map_congr_left fun place hplace => ?_
      obtain ⟨k, below, u, rfl, -⟩ := mem_placesBelow.1 hplace
      rfl
    rw [places_eq, preorder_eq, List.map_cons, List.map_cons, hbelow, map_below?_placesBelow ih]
    rfl

/-- A walk lists a node once for each place of the term where it stands. -/
theorem count_preorder (t : Term) (j : NodeId) :
    (t.preorder.map Term.id).count j = {place | (t.at? place).map Term.id = some j}.ncard := by
  have hset : {place | (t.at? place).map Term.id = some j} =
      ((t.places.filter fun place => (t.at? place).map Term.id = some j).toFinset : Set (List Nat)) := by
    ext place
    simp only [Set.mem_ofPred_eq, List.coe_toFinset, List.mem_filter, mem_places, decide_eq_true_eq]
    constructor
    · intro h
      obtain ⟨u, hu, -⟩ := Option.map_eq_some_iff.1 h
      exact ⟨by rw [hu, Option.isSome_some], h⟩
    · exact And.right
  calc (t.preorder.map Term.id).count j
      = (t.preorder.map some).countP fun u => u.map Term.id = some j := by
        rw [List.count, List.countP_map, List.countP_map]
        refine List.countP_congr fun u _ => ?_
        simp
    _ = (t.places.filter fun place => (t.at? place).map Term.id = some j).length := by
        rw [← map_at?_places, List.countP_map, List.countP_eq_length_filter]
        rfl
    _ = {place | (t.at? place).map Term.id = some j}.ncard := by
        rw [hset, Set.ncard_coe_finset, List.toFinset_card_of_nodup ((nodup_places t).filter _)]

private theorem preorders_eq (ts : List Term) : preorders ts = ts.flatMap preorder := by
  induction ts with
  | nil => rfl
  | cons t ts ih => rw [preorders, ih, List.flatMap_cons]

private theorem postorders_eq (ts : List Term) : postorders ts = ts.flatMap postorder := by
  induction ts with
  | nil => rfl
  | cons t ts ih => rw [postorders, ih, List.flatMap_cons]

end Term

/-! ### Working off a stack -/

namespace Stack

variable {σ : Type} {visit : σ → Option (List σ × List NodeId)} {top : σ} {entries : List σ} {ids : List NodeId}
  {stack : Array σ} {out : Array NodeId}

/-- One turn of the loop.  To visit the entry on top gives the entries that are put in its place, the first one on
top, and the ids that are listed. -/
def turn (visit : σ → Option (List σ × List NodeId)) (s : Array σ × Array NodeId) :
    Part (Array NodeId ⊕ (Array σ × Array NodeId)) :=
  match s.1.back? with
  | none => .some (.inl s.2)
  | some top =>
    (Part.ofOption (visit top)).map fun next => .inr (s.1.pop ++ next.1.reverse.toArray, s.2 ++ next.2.toArray)

/-- The ids that are listed until the stack is empty.  There are none if a visit fails or if the loop goes on
forever. -/
def drain (visit : σ → Option (List σ × List NodeId)) (stack : Array σ) (out : Array NodeId) : Part (Array NodeId) :=
  PFun.fix (turn visit) (stack, out)

private theorem turn_push :
    turn visit (stack.push top, out) =
      (Part.ofOption (visit top)).map fun next => .inr (stack ++ next.1.reverse.toArray, out ++ next.2.toArray) := by
  simp [turn]

private theorem mem_turn_push (h : visit top = some (entries, ids)) :
    .inr (stack ++ entries.reverse.toArray, out ++ ids.toArray) ∈ turn visit (stack.push top, out) := by
  rw [turn_push, h]
  exact Part.mem_map _ (Part.mem_some _)

private theorem drain_empty : drain visit #[] out = Part.some out :=
  Part.eq_some_iff.2 (PFun.fix_stop (Part.mem_some _))

private theorem drain_push (h : visit top = some (entries, ids)) :
    drain visit (stack.push top) out = drain visit (stack ++ entries.reverse.toArray) (out ++ ids.toArray) :=
  PFun.fix_fwd_eq (mem_turn_push h)

private theorem exists_visit {listed : Array NodeId} (h : listed ∈ drain visit (stack.push top) out) :
    ∃ entries ids, visit top = some (entries, ids) := by
  obtain ⟨s, hs⟩ : ∃ s, s ∈ turn visit (stack.push top, out) := by
    rcases PFun.mem_fix_iff.1 h with h | ⟨_, h, -⟩
    · exact ⟨_, h⟩
    · exact ⟨_, h⟩
  rw [turn_push] at hs
  obtain ⟨next, hnext, -⟩ := (Part.mem_map_iff _).1 hs
  exact ⟨next.1, next.2, Part.mem_ofOption.1 hnext⟩

/-- The loop works off an entry before it looks at anything below, and lists this meanwhile. -/
def WorksOff (visit : σ → Option (List σ × List NodeId)) (entry : σ) (listed : List NodeId) : Prop :=
  ∀ stack out, drain visit (stack.push entry) out = drain visit stack (out ++ listed.toArray)

namespace WorksOff

variable {listed : σ → List NodeId}

/-- Entries are worked off from the first, which is on top, to the last. -/
theorem all (h : ∀ entry ∈ entries, WorksOff visit entry (listed entry)) :
    drain visit (stack ++ entries.reverse.toArray) out =
      drain visit stack (out ++ (entries.flatMap listed).toArray) := by
  induction entries generalizing out with
  | nil => simp
  | cons entry entries ih =>
    have hstack : stack ++ (entry :: entries).reverse.toArray = (stack ++ entries.reverse.toArray).push entry :=
      Array.toList_inj.1 (by simp)
    have hout : out ++ ((entry :: entries).flatMap listed).toArray =
        out ++ (listed entry).toArray ++ (entries.flatMap listed).toArray := Array.toList_inj.1 (by simp)
    rw [hstack, h entry (by simp), ih fun e he => h e (by simp [he]), hout]

private theorem of_visit (hvisit : visit top = some (entries, ids))
    (h : ∀ entry ∈ entries, WorksOff visit entry (listed entry)) :
    WorksOff visit top (ids ++ entries.flatMap listed) := by
  intro stack out
  rw [drain_push hvisit, all h]
  exact congrArg _ (Array.toList_inj.1 (by simp))

private theorem of_visit_nil (hvisit : visit top = some ([], ids)) : WorksOff visit top ids := by
  intro stack out
  rw [drain_push hvisit]
  simp

private theorem drain_singleton (h : WorksOff visit top ids) : drain visit #[top] #[] = .some ids.toArray := by
  rw [← Array.push_empty, h, drain_empty]
  simp

end WorksOff

/-- What is inherited by an entry from those that are put in its place holds of all entries on the stack, if the loop
ends. -/
theorem forall_of_mem_drain {P : σ → Prop} {listed : Array NodeId} (h : listed ∈ drain visit stack out)
    (hP : ∀ top entries ids, visit top = some (entries, ids) → (∀ entry ∈ entries, P entry) → P top) :
    ∀ entry ∈ stack, P entry := by
  -- by induction on the turns that the loop makes until it ends
  refine PFun.fixInduction (C := fun s => ∀ entry ∈ s.1, P entry) h ?_
  rintro ⟨stack, out⟩ hmem ih
  cases htop : stack.back? with
  | none => simp [Array.back?_eq_none_iff.1 htop]
  | some top =>
    obtain ⟨rest, rfl⟩ := Array.back?_eq_some_iff.1 htop
    obtain ⟨entries, ids, hvisit⟩ := exists_visit hmem
    have hrest : ∀ entry ∈ rest ++ entries.reverse.toArray, P entry := ih _ (mem_turn_push hvisit)
    intro entry hentry
    rcases Array.mem_push.1 hentry with hentry | rfl
    · exact hrest entry (by simp [hentry])
    · exact hP entry entries ids hvisit fun e he => hrest e (by simp [he])

end Stack

namespace Pool

variable {p : Pool} {i : NodeId} {is : List NodeId}

/-! ### The loops -/

/-- An id is listed, and its operands are put in its place. -/
def walkVisit (p : Pool) (i : NodeId) : Option (List NodeId × List NodeId) := (p.operands? i).map fun is => (is, [i])

/-- A marked id is listed.  In place of another one are put its operands and, below them, the id with a mark. -/
def settleVisit (p : Pool) : NodeId × Bool → Option (List (NodeId × Bool) × List NodeId)
  | (i, true) => some ([], [i])
  | (i, false) => (p.operands? i).map fun is => (is.map (fun j => (j, false)) ++ [(i, true)], [])

/-- The ids of the nodes that an id leads to, each before its operands, by means of a stack. -/
def stackWalk (p : Pool) (i : NodeId) : Part (List NodeId) := (Stack.drain p.walkVisit #[i] #[]).map Array.toList

/-- The ids of the nodes that an id leads to, each after its operands, by means of a stack. -/
def stackSettle (p : Pool) (i : NodeId) : Part (List NodeId) :=
  (Stack.drain p.settleVisit #[(i, false)] #[]).map Array.toList

/-- What `stackSettle` lists for a marked entry, and for one whose expression is grounded. -/
private def settles (p : Pool) : NodeId × Bool → List NodeId
  | (i, true) => [i]
  | (i, false) => (p.unfold i).postorder.map Term.id

/-! ### Grounded expressions -/

namespace Grounded

private theorem operands_unfold (h : p.Grounded i) (hi : p.operands? i = some is) :
    (p.unfold i).operands = is.map p.unfold := by
  have hcomplete := grounded_iff.1 h
  obtain ⟨depth, hdepth⟩ : ∃ depth, p.size = depth + 1 := ⟨p.size - 1, by have := h.index_lt; omega⟩
  rw [unfold, hdepth] at hcomplete ⊢
  obtain ⟨is', hi', his⟩ := isComplete_unfoldTo.1 hcomplete
  obtain rfl := Option.mem_unique hi hi'
  rw [operands_unfoldTo, hi, Option.getD_some]
  refine List.map_congr_left fun j hj => ?_
  rw [unfold, hdepth, unfoldTo_of_isComplete (his j hj) (Nat.le_succ depth)]

private theorem id_unfold (h : p.Grounded i) : (p.unfold i).id = i := (root_unfoldTo (grounded_iff.1 h)).1

/-- The nodes of a grounded expression, each before its operands: the root, and then those of the operands. -/
theorem preorder_unfold (h : p.Grounded i) (hi : p.operands? i = some is) :
    (p.unfold i).preorder.map Term.id = i :: is.flatMap fun j => (p.unfold j).preorder.map Term.id := by
  rw [Term.preorder_eq, List.map_cons, h.id_unfold, h.operands_unfold hi, Term.preorders_eq, List.map_flatMap,
    List.flatMap_map]

/-- The nodes of a grounded expression, each after its operands: those of the operands, and then the root. -/
theorem postorder_unfold (h : p.Grounded i) (hi : p.operands? i = some is) :
    (p.unfold i).postorder.map Term.id = (is.flatMap fun j => (p.unfold j).postorder.map Term.id) ++ [i] := by
  rw [Term.postorder_eq, List.map_append, List.map_singleton, h.id_unfold, h.operands_unfold hi, Term.postorders_eq,
    List.map_flatMap, List.flatMap_map]

private theorem walkVisit_worksOff (h : p.Grounded i) :
    Stack.WorksOff p.walkVisit i ((p.unfold i).preorder.map Term.id) := by
  induction h with
  | @intro i is hi his ih =>
    have hvisit : p.walkVisit i = some (is, [i]) := by rw [walkVisit, hi, Option.map_some]
    rw [preorder_unfold (.intro hi his) hi]
    exact .of_visit hvisit ih

private theorem settleVisit_worksOff (h : p.Grounded i) :
    Stack.WorksOff p.settleVisit (i, false) (p.settles (i, false)) := by
  induction h with
  | @intro i is hi his ih =>
    have hvisit : p.settleVisit (i, false) = some (is.map (fun j => (j, false)) ++ [(i, true)], []) := by
      rw [settleVisit, hi, Option.map_some]
    have hlisted : p.settles (i, false) = [] ++ (is.map (fun j => (j, false)) ++ [(i, true)]).flatMap p.settles := by
      simp [settles, postorder_unfold (.intro hi his) hi, List.flatMap_map]
    rw [hlisted]
    refine .of_visit hvisit fun entry hentry => ?_
    -- the operands come first, and then the mark is on top
    rcases List.mem_append.1 hentry with hentry | hentry
    · obtain ⟨j, hj, rfl⟩ := List.mem_map.1 hentry
      exact ih j hj
    · obtain rfl := List.mem_singleton.1 hentry
      exact .of_visit_nil rfl

theorem stackWalk_eq (h : p.Grounded i) : p.stackWalk i = .some ((p.unfold i).preorder.map Term.id) := by
  rw [stackWalk, h.walkVisit_worksOff.drain_singleton, Part.map_some]

theorem stackSettle_eq (h : p.Grounded i) : p.stackSettle i = .some ((p.unfold i).postorder.map Term.id) := by
  rw [stackSettle, h.settleVisit_worksOff.drain_singleton, Part.map_some]
  rfl

end Grounded

/-! ### Other expressions -/

/-- If the walk ends, the expression is grounded. -/
theorem grounded_of_walk {listed : List NodeId} (h : listed ∈ p.stackWalk i) : p.Grounded i := by
  obtain ⟨ids, hids, -⟩ := (Part.mem_map_iff _).1 h
  refine Stack.forall_of_mem_drain hids ?_ i (by simp)
  intro i entries ids hvisit hentries
  obtain ⟨is, hi, hnext⟩ := Option.map_eq_some_iff.1 hvisit
  obtain ⟨rfl, -⟩ := Prod.mk.inj hnext
  exact .intro hi hentries

/-- If the loop with marks ends, the expression is grounded. -/
theorem grounded_of_settle {listed : List NodeId} (h : listed ∈ p.stackSettle i) : p.Grounded i := by
  obtain ⟨ids, hids, -⟩ := (Part.mem_map_iff _).1 h
  refine Stack.forall_of_mem_drain (P := fun entry => entry.2 = false → p.Grounded entry.1) hids ?_ (i, false) (by simp)
    rfl
  rintro ⟨i, marked⟩ entries ids hvisit hentries rfl
  obtain ⟨is, hi, hnext⟩ := Option.map_eq_some_iff.1 hvisit
  obtain ⟨rfl, -⟩ := Prod.mk.inj hnext
  exact .intro hi fun j hj => hentries (j, false) (by simp [hj]) rfl

/-! ### The loops and the unfolded term -/

private theorem term?_eq_none (h : ¬ p.Grounded i) : p.term? i = none := by
  rw [grounded_iff] at h
  simp [term?, h]

private theorem Grounded.term?_eq (h : p.Grounded i) : p.term? i = some (p.unfold i) :=
  term?_eq_some.2 ⟨grounded_iff.1 h, rfl⟩

/-- The walk with a stack ends exactly if the expression can be unfolded, and is the walk of the term. -/
theorem stackWalk_eq : p.stackWalk i = Part.ofOption (p.walk? i) := by
  by_cases h : p.Grounded i
  · rw [h.stackWalk_eq, walk?, h.term?_eq, Option.map_some, Term.walk_eq, Part.coe_some]
  · rw [walk?, term?_eq_none h]
    exact Part.eq_none_iff.2 fun listed hlisted => h (grounded_of_walk hlisted)

/-- The loop with marks ends exactly if the expression can be unfolded, and lists its nodes in the order of
evaluation. -/
theorem stackSettle_eq : p.stackSettle i = Part.ofOption ((p.term? i).map fun t => t.settled.map Term.id) := by
  by_cases h : p.Grounded i
  · rw [h.stackSettle_eq, h.term?_eq, Option.map_some, Term.settled_eq, Part.coe_some]
  · rw [term?_eq_none h]
    exact Part.eq_none_iff.2 fun listed hlisted => h (grounded_of_settle hlisted)

end Pool

/-- In a pool in postorder, both loops end on every expression.  The walk is the root and then the walks of the
operands, from left to right, and the order of evaluation is those of the operands, from left to right, and then the
root.  The two list the same nodes equally often, once for each place where a node stands in the unfolded term.

The loops give what unfolding gives, and a draft gives pools in postorder. -/
theorem Pool.traversals_recursive :
    (∀ (p : Pool) (root : NodeId), p.Postordered → root.index < p.size →
      ∃ (is : List NodeId) (walks orders : List (List NodeId)),
        p.operands? root = some is ∧
        is.map p.stackWalk = walks.map Part.some ∧ p.stackWalk root = Part.some (root :: walks.flatten) ∧
        is.map p.stackSettle = orders.map Part.some ∧ p.stackSettle root = Part.some (orders.flatten ++ [root]) ∧
        (root :: walks.flatten).Perm (orders.flatten ++ [root]) ∧
        ∀ j, (root :: walks.flatten).count j = {place | ((p.unfold root).at? place).map Term.id = some j}.ncard) ∧
    (∀ (p : Pool) (i : NodeId),
      p.stackWalk i = Part.ofOption (p.walk? i) ∧
      p.stackSettle i = Part.ofOption ((p.term? i).map fun t => t.settled.map Term.id)) ∧
    ∀ (names : SymbolTable) (es : List Written),
      (Draft.placeAll es (.start names)).2.pool.Postordered ∧
      ∀ is, (Draft.placeAll es (.start names)).1 = some is →
        ∀ i ∈ is, i.index < (Draft.placeAll es (.start names)).2.pool.size := by
  refine ⟨?_, fun p i => ⟨stackWalk_eq, stackSettle_eq⟩, Draft.placeAll_postordered⟩
  intro p root hp hroot
  have hgrounded := hp.grounded hroot
  obtain ⟨is, hi⟩ := hp.exists_operands hroot
  have hbelow : ∀ j ∈ is, p.Grounded j := fun j hj => hp.grounded (Nat.lt_trans (hp.index_lt hi hj) hroot)
  have hpreorder := hgrounded.preorder_unfold hi
  have hpostorder := hgrounded.postorder_unfold hi
  refine ⟨is, is.map fun j => (p.unfold j).preorder.map Term.id, is.map fun j => (p.unfold j).postorder.map Term.id,
    hi, ?_, ?_, ?_, ?_, ?_, ?_⟩
  · rw [List.map_map]
    exact List.map_congr_left fun j hj => (hbelow j hj).stackWalk_eq
  · rw [hgrounded.stackWalk_eq, hpreorder, List.flatMap_def]
  · rw [List.map_map]
    exact List.map_congr_left fun j hj => (hbelow j hj).stackSettle_eq
  · rw [hgrounded.stackSettle_eq, hpostorder, List.flatMap_def]
  · rw [← List.flatMap_def, ← List.flatMap_def, ← hpreorder, ← hpostorder, ← Term.walk_eq, ← Term.settled_eq]
    exact (p.unfold root).walk_perm_settled.map Term.id
  · intro j
    rw [← List.flatMap_def, ← hpreorder]
    exact (p.unfold root).count_preorder j

/-- The tuple `(1 + 2, 1)`, with the `1` shared. -/
def Pool.reused : Pool where
  nodes := #[⟨.literal (.int 1), ⟨0, 1⟩⟩, ⟨.literal (.int 2), ⟨4, 5⟩⟩, ⟨.operator .add ⟨0⟩ ⟨1⟩, ⟨0, 5⟩⟩,
    ⟨.row .tuple ⟨0, 2⟩, ⟨0, 0⟩⟩]
  lists := #[⟨2⟩, ⟨0⟩]

theorem Pool.reused_traversals :
    Pool.reused.Postordered ∧
    Pool.reused.stackWalk ⟨3⟩ = Part.some [⟨3⟩, ⟨2⟩, ⟨0⟩, ⟨1⟩, ⟨0⟩] ∧
    Pool.reused.stackSettle ⟨3⟩ = Part.some [⟨0⟩, ⟨1⟩, ⟨2⟩, ⟨0⟩, ⟨3⟩] ∧
    {place | ((Pool.reused.unfold ⟨3⟩).at? place).map Term.id = some ⟨0⟩}.ncard = 2 := by
  have hp : Pool.reused.Postordered := by decide
  obtain ⟨hrecursive, hloops, -⟩ := Pool.traversals_recursive
  obtain ⟨is, walks, orders, -, -, hwalk, -, -, -, hcount⟩ := hrecursive Pool.reused ⟨3⟩ hp (by decide)
  have hlisted : Pool.reused.stackWalk ⟨3⟩ = Part.some [⟨3⟩, ⟨2⟩, ⟨0⟩, ⟨1⟩, ⟨0⟩] := by
    rw [(hloops _ _).1]
    cbv
  have horder : Pool.reused.stackSettle ⟨3⟩ = Part.some [⟨0⟩, ⟨1⟩, ⟨2⟩, ⟨0⟩, ⟨3⟩] := by
    rw [(hloops _ _).2]
    cbv
  rw [hlisted] at hwalk
  refine ⟨hp, hlisted, horder, ?_⟩
  rw [← hcount, ← Part.some_injective hwalk]
  decide

end QueryPipeline
