import Mathlib.Data.List.Perm.Subperm
import Mathlib.Logic.Relation
import QueryPipeline.Proofs.Eval

/-!
# Grounded expressions

An expression of a pool is grounded if all the nodes that it leads to are in the pool and none of them is part of
itself (`Pool.Grounded`).  The ids on the way from an expression down to one of its nodes are then all different, so
there are no more of them than the pool has nodes.  Hence the grounded expressions are those that unfold to a term
without holes (`Pool.grounded_iff`).

For the same reason, if no node of a pool is part of itself, an expression is grounded as soon as nothing that it leads
to is outside the pool (`Pool.grounded_of_acyclic`).
-/

namespace QueryPipeline

theorem Term.isComplete_iff {t : Term} :
    t.isComplete = true ↔ t ≠ .hole ∧ ∀ u ∈ t.operands, u.isComplete = true := by
  cases t <;> simp [isComplete, operands, areComplete_iff]

namespace Pool

variable {p : Pool} {i : NodeId} {depth : Nat}

/-- The node is in the pool, and all its operands are grounded.  Since this is inductive, no way down from the node
goes on for ever, and so none comes back to where it was. -/
inductive Grounded (p : Pool) : NodeId → Prop
  | intro {i : NodeId} {is : List NodeId} (hi : p.operands? i = some is) (his : ∀ j ∈ is, Grounded p j) : Grounded p i

/-! ### One level of a term -/

/-- The operands of an unfolded node are its unfolded operands. -/
theorem operands_unfoldTo (p : Pool) (depth : Nat) (i : NodeId) :
    (p.unfoldTo (depth + 1) i).operands = ((p.operands? i).getD []).map (p.unfoldTo depth) := by
  rw [unfoldTo]
  cases hn : p.get? i with
  | none => simp [operands?, hn, Term.operands]
  | some n =>
    have hoperands : p.operands? i = p.operandsOf? n.form := by simp [operands?, hn]
    rw [hoperands]
    cases hf : n.form with
    | row kind s => cases hs : p.slice? s <;> simp [hf, operandsOf?, hs, Term.operands]
    | _ => simp [hf, operandsOf?, Term.operands]

private theorem unfoldTo_eq_hole : p.unfoldTo (depth + 1) i = .hole ↔ p.operands? i = none := by
  rw [unfoldTo]
  cases hn : p.get? i with
  | none => simp [operands?, hn]
  | some n =>
    have hoperands : p.operands? i = p.operandsOf? n.form := by simp [operands?, hn]
    rw [hoperands]
    cases hf : n.form with
    | row kind s => cases hs : p.slice? s <;> simp [hf, operandsOf?, hs]
    | _ => simp [hf, operandsOf?]

theorem isComplete_unfoldTo : (p.unfoldTo (depth + 1) i).isComplete = true ↔
    ∃ is, p.operands? i = some is ∧ ∀ j ∈ is, (p.unfoldTo depth j).isComplete = true := by
  rw [Term.isComplete_iff, Ne, unfoldTo_eq_hole, operands_unfoldTo]
  cases p.operands? i <;> simp

/-! ### How deep an expression goes -/

private theorem Grounded.of_isComplete (h : (p.unfoldTo depth i).isComplete = true) : p.Grounded i := by
  induction depth generalizing i with
  | zero => cases h
  | succ depth ih =>
    obtain ⟨is, hi, his⟩ := isComplete_unfoldTo.1 h
    exact .intro hi fun j hj => ih (his j hj)

private theorem exists_common_depth {is : List NodeId} (h : ∀ j ∈ is, ∃ d, (p.unfoldTo d j).isComplete = true) :
    ∃ d, ∀ j ∈ is, (p.unfoldTo d j).isComplete = true := by
  induction is with
  | nil => exact ⟨0, by simp⟩
  | cons i is ih =>
    obtain ⟨d, hd⟩ := ih fun j hj => h j (by simp [hj])
    obtain ⟨e, he⟩ := h i (by simp)
    refine ⟨max d e, fun j hj => ?_⟩
    rcases List.mem_cons.1 hj with rfl | hj
    · rwa [unfoldTo_of_isComplete he (by omega)]
    · rw [unfoldTo_of_isComplete (hd j hj) (by omega)]
      exact hd j hj

private theorem Grounded.exists_depth (h : p.Grounded i) : ∃ d, (p.unfoldTo d i).isComplete = true := by
  induction h with
  | intro hi _ ih =>
    obtain ⟨d, hd⟩ := exists_common_depth ih
    exact ⟨d + 1, isComplete_unfoldTo.2 ⟨_, hi, hd⟩⟩

/-- At a depth at which a node has no holes, its operands have none either, and are smaller. -/
private theorem operand_smaller {is : List NodeId} {j : NodeId} (h : (p.unfoldTo depth i).isComplete = true)
    (hi : p.operands? i = some is) (hj : j ∈ is) :
    (p.unfoldTo depth j).isComplete = true ∧ (p.unfoldTo depth j).size < (p.unfoldTo depth i).size := by
  cases depth with
  | zero => cases h
  | succ d =>
    obtain ⟨is', hi', his⟩ := isComplete_unfoldTo.1 h
    obtain rfl := Option.mem_unique hi hi'
    have hsame : p.unfoldTo (d + 1) j = p.unfoldTo d j := unfoldTo_of_isComplete (his j hj) (by omega)
    have hmem : p.unfoldTo d j ∈ (p.unfoldTo (d + 1) i).operands := by
      rw [operands_unfoldTo, hi]
      exact List.mem_map.2 ⟨j, hj, rfl⟩
    rw [hsame]
    exact ⟨his j hj, Term.size_lt_of_mem_operands hmem⟩

theorem index_lt_of_operands {is : List NodeId} (h : p.operands? i = some is) : i.index < p.size := by
  obtain ⟨n, hn, -⟩ := Option.bind_eq_some_iff.1 h
  exact (Array.getElem?_eq_some_iff.1 hn).1

theorem Grounded.index_lt (h : p.Grounded i) : i.index < p.size := by
  cases h with
  | intro hi _ => exact index_lt_of_operands hi

private theorem length_le_size {above : List NodeId} (hnodup : above.Nodup)
    (hin : ∀ a ∈ above, a.index < p.size) : above.length ≤ p.size := by
  have hsub : above ⊆ (List.range p.size).map NodeId.mk := fun a ha =>
    List.mem_map.2 ⟨a.index, List.mem_range.2 (hin a ha), rfl⟩
  simpa using (List.subperm_of_subset hnodup hsub).length_le

/-- A node below the nodes `above`, all of them larger, has no holes within the room that they leave. -/
private theorem isComplete_below {d n : Nat} {above : List NodeId} (hnodup : above.Nodup)
    (hin : ∀ a ∈ above, a.index < p.size) (hroom : above.length + n = p.size)
    (hlarger : ∀ a ∈ above, (p.unfoldTo d i).size < (p.unfoldTo d a).size)
    (h : (p.unfoldTo d i).isComplete = true) : (p.unfoldTo n i).isComplete = true := by
  induction n generalizing i above with
  | zero =>
    -- the node is one more than there are in the pool
    have hnew : i ∉ above := fun hmem => Nat.lt_irrefl _ (hlarger i hmem)
    have hlen := length_le_size (p := p) (List.nodup_cons.2 ⟨hnew, hnodup⟩)
      (List.forall_mem_cons.2 ⟨(Grounded.of_isComplete h).index_lt, hin⟩)
    rw [List.length_cons] at hlen
    omega
  | succ n ih =>
    have hnew : i ∉ above := fun hmem => Nat.lt_irrefl _ (hlarger i hmem)
    cases Grounded.of_isComplete h with
    | intro hi his =>
      refine isComplete_unfoldTo.2 ⟨_, hi, fun j hj => ?_⟩
      obtain ⟨hcomplete, hsmaller⟩ := operand_smaller h hi hj
      refine ih (List.nodup_cons.2 ⟨hnew, hnodup⟩) (List.forall_mem_cons.2 ⟨?_, hin⟩)
        (by rw [List.length_cons]; omega) (List.forall_mem_cons.2 ⟨hsmaller, fun a ha => ?_⟩) hcomplete
      · exact (Grounded.intro hi his).index_lt
      · exact Nat.lt_trans hsmaller (hlarger a ha)

/-- The grounded expressions are those that unfold to a term without holes. -/
theorem grounded_iff : p.Grounded i ↔ (p.unfold i).isComplete = true := by
  constructor
  · intro h
    obtain ⟨d, hd⟩ := h.exists_depth
    exact isComplete_below List.nodup_nil (by simp) (by simp) (by simp) hd
  · exact .of_isComplete

/-! ### Ways down -/

/-- The second node is an operand of the first. -/
def IsOperand (p : Pool) (i j : NodeId) : Prop := ∃ is, p.operands? i = some is ∧ j ∈ is

/-- A way down leads from the first node to the second. -/
def LeadsTo (p : Pool) : NodeId → NodeId → Prop := Relation.ReflTransGen p.IsOperand

/-- No node is part of itself. -/
def Acyclic (p : Pool) : Prop := ∀ i, ¬ Relation.TransGen p.IsOperand i i

/-- If the operands of every node stand before it, no node is part of itself. -/
theorem acyclic_of_lt (h : ∀ k < p.size, ∀ j ∈ (p.operands? ⟨k⟩).getD [], j.index < k) : p.Acyclic := by
  have hstep : ∀ i j, p.IsOperand i j → j.index < i.index := by
    rintro i j ⟨is, hi, hj⟩
    exact h i.index (index_lt_of_operands hi) j (by rw [hi]; exact hj)
  have hbelow : ∀ i j, Relation.TransGen p.IsOperand i j → j.index < i.index := by
    intro i j hij
    induction hij with
    | single h => exact hstep _ _ h
    | tail _ h ih => exact Nat.lt_trans (hstep _ _ h) ih
  intro i hi
  exact Nat.lt_irrefl _ (hbelow i i hi)

theorem Grounded.of_leadsTo {j : NodeId} (h : p.Grounded i) (hj : p.LeadsTo i j) : p.Grounded j := by
  induction hj with
  | refl => exact h
  | tail _ hstep ih =>
    obtain ⟨is, hi, hmem⟩ := hstep
    cases ih with
    | intro hi' his =>
      obtain rfl := Option.mem_unique hi hi'
      exact his _ hmem

theorem Grounded.isSome_operands (h : p.Grounded i) : (p.operands? i).isSome = true := by
  cases h with
  | intro hi _ => rw [hi, Option.isSome_some]

/-- A node below the nodes `above` is grounded.  The recursion ends since there are no more nodes on a way down than in
the pool. -/
private theorem grounded_below {i : NodeId} {above : List NodeId} (hp : p.Acyclic) (hnodup : above.Nodup)
    (hin : ∀ a ∈ above, a.index < p.size) (habove : ∀ a ∈ above, Relation.TransGen p.IsOperand a i)
    (h : ∀ j, p.LeadsTo i j → (p.operands? j).isSome = true) : p.Grounded i := by
  obtain ⟨is, hi⟩ := Option.isSome_iff_exists.1 (h i .refl)
  have hnew : i ∉ above := fun hmem => hp i (habove i hmem)
  have hnodup' : (i :: above).Nodup := List.nodup_cons.2 ⟨hnew, hnodup⟩
  have hin' : ∀ a ∈ i :: above, a.index < p.size := List.forall_mem_cons.2 ⟨index_lt_of_operands hi, hin⟩
  have hroom : above.length + 1 ≤ p.size := length_le_size hnodup' hin'
  refine .intro hi ?_
  intro j hj
  have hstep : p.IsOperand i j := ⟨is, hi, hj⟩
  have habove' : ∀ a ∈ i :: above, Relation.TransGen p.IsOperand a j :=
    List.forall_mem_cons.2 ⟨.single hstep, fun a ha => (habove a ha).tail hstep⟩
  exact grounded_below hp hnodup' hin' habove' fun k hk => h k (.head hstep hk)
termination_by p.size - above.length
decreasing_by
  rw [List.length_cons]
  omega

/-- In a pool where no node is part of itself, an expression is grounded if the pool has all that it leads to. -/
theorem grounded_of_acyclic (hp : p.Acyclic) (h : ∀ j, p.LeadsTo i j → (p.operands? j).isSome = true) :
    p.Grounded i :=
  grounded_below hp List.nodup_nil (by simp) (by simp) h

end Pool

end QueryPipeline
