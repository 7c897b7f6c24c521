import Mathlib
import QueryPipeline.Proofs.Assigned
import QueryPipeline.Proofs.Grounded

/-!
# Paths through an expression

A path through an expression is a way in which its evaluation can go (`Term.Path`): it ends in a truth value and
assigns names on its way.  A connective may leave out its right operand; apart from that the results of the parts of
an expression are taken to be independent of each other.

Definite assignment keeps to what is assigned on every path, no more and no less: after a truth value the names surely
assigned are those that every path with that end assigns (`Pool.assigned_iff_every_path`).  An evaluation keeps to it
as well (`Pool.eval_surely_assigns`).
-/

namespace QueryPipeline

private theorem Assigned.always_iff {a : Assigned} : a.always = true ↔ ∀ b, a.after b = true := by
  simp [always, after, and_comm]

@[simp] theorem Assigned.after_uniformly (a b : Bool) : (Assigned.uniformly a).after b = a := by
  cases b <;> rfl

namespace Term

/-! ### Paths -/

/-- Whether the root takes its operands as they come, one after the other, and its result is its own. -/
def isPlain : Term → Bool
  | literal _ _ | ident _ _ | operator _ _ _ _ | neg _ _ | row _ _ _ | part _ _ _ => true
  | hole | connective _ _ _ _ | not _ _ | test _ _ _ _ | assign _ _ _ => false

mutual

/-- A path through the term, with the truth value that it ends in and the names that it assigns, in order.  Only a
connective and a negation tie their result to those of their operands. -/
inductive Path : Term → Bool → List Symbol → Prop
  /-- The left operand decides. -/
  | decided {o c l r a A} (hl : Path l a A) (ha : c.isOpen a = false) : Path (connective o c l r) a A
  /-- The left operand leaves the answer open. -/
  | both {o c l r a b A B} (hl : Path l a A) (ha : c.isOpen a = true) (hr : Path r b B) :
    Path (connective o c l r) b (A ++ B)
  | negated {o e b A} (he : Path e (!b) A) : Path (Term.not o e) b A
  | passed {o q e x a A} (he : Path e a A) : Path (test o q e x) true (A ++ (test o q e x).bound?.toList)
  | failed {o q e x a A} (he : Path e a A) : Path (test o q e x) false A
  | assigned {o x e a A} (he : Path e a A) (b : Bool) : Path (assign o x e) b (A ++ [x])
  | plain {t A} (ht : t.isPlain = true) (h : PathAlong t.operands A) (b : Bool) : Path t b A

/-- A path through some terms, one after the other. -/
inductive PathAlong : List Term → List Symbol → Prop
  | nil : PathAlong [] []
  | cons {t ts a A B} (ht : Path t a A) (hts : PathAlong ts B) : PathAlong (t :: ts) (A ++ B)

end

/-- The variable is assigned on every path through the term that ends in the truth value. -/
def OnEvery (t : Term) (b : Bool) (x : Symbol) : Prop := ∀ A, t.Path b A → x ∈ A

variable {x y : Symbol} {o : Origin} {b : Bool}

/-- Two parts of a path are chosen independently, so one of them always has what they have together. -/
private theorem forall_mem_append {P Q : List Symbol → Prop} :
    (∀ A, P A → ∀ B, Q B → x ∈ A ++ B) ↔ (∀ A, P A → x ∈ A) ∨ ∀ B, Q B → x ∈ B := by
  constructor
  · intro h
    by_cases hP : ∀ A, P A → x ∈ A
    · exact Or.inl hP
    · push Not at hP
      obtain ⟨A, hA, hx⟩ := hP
      refine Or.inr fun B hB => ?_
      exact (List.mem_append.1 (h A hA B hB)).resolve_left hx
  · rintro (h | h) A hA B hB
    · exact List.mem_append_left _ (h A hA)
    · exact List.mem_append_right _ (h B hB)

/-! ### What is assigned on every path, node by node -/

private theorem onEvery_connective {c : Connective} {l r : Term} : (connective o c l r).OnEvery b x ↔
    (c.isOpen b = false → l.OnEvery b x) ∧ ∀ a, c.isOpen a = true → l.OnEvery a x ∨ r.OnEvery b x := by
  constructor
  · intro h
    refine ⟨fun hb A hA => h A (.decided hA hb), fun a ha => ?_⟩
    exact forall_mem_append.1 fun A hA B hB => h _ (.both hA ha hB)
  · rintro ⟨hdecided, hboth⟩ A hA
    cases hA with
    | decided hl ha => exact hdecided ha _ hl
    | both hl ha hr => exact forall_mem_append.2 (hboth _ ha) _ hl _ hr
    | plain ht => cases ht

private theorem onEvery_not {e : Term} : (Term.not o e).OnEvery b x ↔ e.OnEvery (!b) x := by
  constructor
  · intro h A hA
    exact h A (.negated hA)
  · intro h A hA
    cases hA with
    | negated he => exact h A he
    | plain ht => cases ht

private theorem onEvery_test {q : Test} {e : Term} : (test o q e y).OnEvery b x ↔
    (∀ a, e.OnEvery a x) ∨ b = true ∧ x ∈ (test o q e y).bound? := by
  cases b with
  | false =>
    constructor
    · intro h
      exact Or.inl fun a A hA => h A (.failed hA)
    · rintro (h | ⟨hb, -⟩) A hA
      · cases hA with
        | failed he => exact h _ _ he
        | plain ht => cases ht
      · cases hb
  | true =>
    constructor
    · intro h
      by_cases hx : x ∈ (test o q e y).bound?
      · exact Or.inr ⟨rfl, hx⟩
      · refine Or.inl fun a A hA => (List.mem_append.1 (h _ (.passed hA))).resolve_right ?_
        rwa [Option.mem_toList]
    · intro h A hA
      cases hA with
      | passed he =>
        rcases h with h | ⟨-, hx⟩
        · exact List.mem_append_left _ (h _ _ he)
        · exact List.mem_append_right _ (Option.mem_toList.2 hx)
      | plain ht => cases ht

private theorem onEvery_assign {e : Term} : (assign o y e).OnEvery b x ↔ (∀ a, e.OnEvery a x) ∨ y = x := by
  constructor
  · intro h
    by_cases hx : y = x
    · exact Or.inr hx
    · refine Or.inl fun a A hA => (List.mem_append.1 (h _ (.assigned hA b))).resolve_right ?_
      simpa using Ne.symm hx
  · intro h A hA
    cases hA with
    | assigned he =>
      rcases h with h | rfl
      · exact List.mem_append_left _ (h _ _ he)
      · simp
    | plain ht => cases ht

private theorem mem_pathAlong {ts : List Term} :
    (∀ A, PathAlong ts A → x ∈ A) ↔ ∃ t ∈ ts, ∀ a, t.OnEvery a x := by
  induction ts with
  | nil =>
    constructor
    · intro h
      cases h [] .nil
    · rintro ⟨t, ht, -⟩
      cases ht
  | cons t ts ih =>
    simp only [List.mem_cons, exists_eq_or_imp, ← ih]
    constructor
    · intro h
      have hsplit : (∀ A, (∃ a, t.Path a A) → x ∈ A) ∨ ∀ B, PathAlong ts B → x ∈ B := by
        refine forall_mem_append.1 ?_
        rintro A ⟨a, hA⟩ B hB
        exact h _ (.cons hA hB)
      exact hsplit.imp_left fun ht a A hA => ht A ⟨a, hA⟩
    · intro h A hA
      cases hA with
      | cons ht hts =>
        rcases h with h | h
        · exact List.mem_append_left _ (h _ _ ht)
        · exact List.mem_append_right _ (h _ hts)

private theorem onEvery_plain {t : Term} (ht : t.isPlain = true) :
    t.OnEvery b x ↔ ∃ u ∈ t.operands, ∀ a, u.OnEvery a x := by
  rw [← mem_pathAlong]
  constructor
  · intro h A hA
    exact h A (.plain ht hA b)
  · intro h A hA
    cases hA with
    | plain _ hA => exact h A hA
    | _ => cases ht

/-! ### Definite assignment, node by node -/

private theorem someAssigns_iff {ts : List Term} :
    someAssigns x ts = true ↔ ∃ t ∈ ts, ∀ a, (t.assigned x).after a = true := by
  induction ts with
  | nil => simp [someAssigns]
  | cons t ts ih => simp only [someAssigns, Bool.or_eq_true, Assigned.always_iff, ih, List.mem_cons, exists_eq_or_imp]

private theorem assigned_of_isPlain {t : Term} (ht : t.isPlain = true) :
    t.assigned x = .uniformly (someAssigns x t.operands) := by
  cases t with
  | literal | ident | operator | neg | row | part => simp [assigned, operands, someAssigns]
  | hole | connective | not | test | assign => cases ht

/-- Definite assignment is exact on a term without holes. -/
theorem assigned_iff_onEvery {t : Term} (h : t.isComplete = true) (b : Bool) :
    (t.assigned x).after b = true ↔ t.OnEvery b x := by
  induction t using operandInduction generalizing b with
  | step t ih =>
    obtain ⟨hhole, hoperands⟩ := isComplete_iff.1 h
    replace ih : ∀ u ∈ t.operands, ∀ a, u.OnEvery a x ↔ (u.assigned x).after a = true :=
      fun u hu a => (ih u hu (hoperands u hu) a).symm
    by_cases hplain : t.isPlain = true
    · have hsome : someAssigns x t.operands = true ↔ ∃ u ∈ t.operands, ∀ a, u.OnEvery a x := by
        rw [someAssigns_iff]
        exact exists_congr fun u => and_congr_right fun hu => forall_congr' fun a => (ih u hu a).symm
      rw [onEvery_plain hplain, ← hsome, assigned_of_isPlain hplain, Assigned.after_uniformly]
    cases t with
    | hole => exact absurd rfl hhole
    | literal | ident | operator | neg | row | part => exact absurd rfl hplain
    | connective o c l r =>
      rw [onEvery_connective]
      simp only [ih l (by simp [operands]), ih r (by simp [operands])]
      cases c <;> cases b <;> simp [Connective.isOpen, assigned, Assigned.after, Assigned.and, Assigned.or]
    | not o e =>
      rw [onEvery_not, ih e (by simp [operands])]
      cases b <;> simp [assigned, Assigned.after, Assigned.negate]
    | test o q e y =>
      rw [onEvery_test]
      simp only [ih e (by simp [operands]), ← Assigned.always_iff]
      cases b <;> simp [assigned, Assigned.after, bound?]
    | assign o y e =>
      rw [onEvery_assign, assigned, Assigned.after_uniformly]
      simp only [ih e (by simp [operands]), ← Assigned.always_iff, Bool.or_eq_true, beq_iff_eq]

/-! ### Both results can be reached -/

private theorem exists_pathAlong {ts : List Term} (h : ∀ t ∈ ts, ∃ A, t.Path true A) : ∃ A, PathAlong ts A := by
  induction ts with
  | nil => exact ⟨[], .nil⟩
  | cons t ts ih =>
    obtain ⟨A, hA⟩ := h t (by simp)
    obtain ⟨B, hB⟩ := ih fun u hu => h u (by simp [hu])
    exact ⟨A ++ B, .cons hA hB⟩

/-- Through a term without holes there is a path to either truth value. -/
theorem exists_path {t : Term} (h : t.isComplete = true) (b : Bool) : ∃ A, t.Path b A := by
  induction t using operandInduction generalizing b with
  | step t ih =>
    obtain ⟨hhole, hoperands⟩ := isComplete_iff.1 h
    replace ih : ∀ u ∈ t.operands, ∀ a, ∃ A, u.Path a A := fun u hu a => ih u hu (hoperands u hu) a
    by_cases hplain : t.isPlain = true
    · obtain ⟨A, hA⟩ := exists_pathAlong fun u hu => ih u hu true
      exact ⟨A, .plain hplain hA b⟩
    cases t with
    | hole => exact absurd rfl hhole
    | literal | ident | operator | neg | row | part => exact absurd rfl hplain
    | connective o c l r =>
      obtain ⟨a, ha⟩ : ∃ a, c.isOpen a = true := ⟨c.isOpen true, by cases c <;> rfl⟩
      obtain ⟨A, hA⟩ := ih l (by simp [operands]) a
      obtain ⟨B, hB⟩ := ih r (by simp [operands]) b
      exact ⟨A ++ B, .both hA ha hB⟩
    | not o e =>
      obtain ⟨A, hA⟩ := ih e (by simp [operands]) (!b)
      exact ⟨A, .negated hA⟩
    | test o q e y =>
      obtain ⟨A, hA⟩ := ih e (by simp [operands]) true
      cases b with
      | true => exact ⟨_, .passed hA⟩
      | false => exact ⟨A, .failed hA⟩
    | assign o y e =>
      obtain ⟨A, hA⟩ := ih e (by simp [operands]) true
      exact ⟨A ++ [y], .assigned hA b⟩

end Term

/-! ### Expressions of a pool -/

/-- Definite assignment is exact over paths.  A name is surely assigned when an expression is true, or false, if and
only if it is assigned on every path through the expression that ends so; and there are such paths. -/
theorem Pool.assigned_iff_every_path {p : Pool} {i : NodeId} (hi : p.Grounded i) (x : Symbol) :
    (((p.unfold i).assigned x).whenTrue = true ↔ ∀ A, (p.unfold i).Path true A → x ∈ A) ∧
    (((p.unfold i).assigned x).whenFalse = true ↔ ∀ A, (p.unfold i).Path false A → x ∈ A) ∧
    ∀ b, ∃ A, (p.unfold i).Path b A := by
  have hcomplete := Pool.grounded_iff.1 hi
  exact ⟨Term.assigned_iff_onEvery hcomplete true, Term.assigned_iff_onEvery hcomplete false,
    Term.exists_path hcomplete⟩

/-- A test that is made again if what follows it fails: `(x is int i && (k = i) > 0) || x is int i`. -/
def Pool.retried : Pool where
  nodes := #[⟨.ident ⟨1⟩, ⟨0, 1⟩⟩, ⟨.test (.hasType .int) ⟨0⟩ ⟨2⟩, ⟨2, 3⟩⟩, ⟨.ident ⟨2⟩, ⟨4, 5⟩⟩,
    ⟨.assign ⟨3⟩ ⟨2⟩, ⟨6, 7⟩⟩, ⟨.literal (.int 0), ⟨8, 9⟩⟩, ⟨.operator .gt ⟨3⟩ ⟨4⟩, ⟨10, 11⟩⟩,
    ⟨.connective .and ⟨1⟩ ⟨5⟩, ⟨12, 13⟩⟩, ⟨.test (.hasType .int) ⟨0⟩ ⟨2⟩, ⟨14, 15⟩⟩,
    ⟨.connective .or ⟨6⟩ ⟨7⟩, ⟨16, 17⟩⟩]
  lists := #[]

private theorem Pool.retried_grounded : Pool.retried.Grounded ⟨8⟩ := Pool.grounded_iff.2 (by decide)

/-- If the expression is true, `i` has been assigned on every path to there, and `k` on some only. -/
theorem Pool.retried_every_path : Pool.retried.Grounded ⟨8⟩ ∧
    (∀ A, (Pool.retried.unfold ⟨8⟩).Path true A → ⟨2⟩ ∈ A) ∧
    (∃ A, (Pool.retried.unfold ⟨8⟩).Path true A ∧ ⟨3⟩ ∉ A) ∧
    ∃ A, (Pool.retried.unfold ⟨8⟩).Path false A ∧ ⟨2⟩ ∉ A := by
  refine ⟨Pool.retried_grounded, ?_, ?_, ?_⟩
  · exact (Pool.assigned_iff_every_path Pool.retried_grounded ⟨2⟩).1.1 (by decide)
  · have hsome := mt (Pool.assigned_iff_every_path Pool.retried_grounded ⟨3⟩).1.2 (by decide)
    push Not at hsome
    exact hsome
  · have hsome := mt (Pool.assigned_iff_every_path Pool.retried_grounded ⟨2⟩).2.1.2 (by decide)
    push Not at hsome
    exact hsome

/-- An evaluation keeps to definite assignment.  After a result after which a name that tests bind has surely been
assigned, the name has a value; the memory at the start does not matter. -/
theorem Pool.eval_surely_assigns {p : Pool} {i : NodeId} (hi : p.Grounded i) {g : Setting} {m m' : Memory} {v : Value}
    (h : p.eval g i m = .ok (v, m')) {x : Symbol} (hx : x ∈ g.declared) :
    (((p.unfold i).assigned x).whenTrue = true → v = .bool true → m'.locals.contains x = true) ∧
    (((p.unfold i).assigned x).whenFalse = true → v = .bool false → m'.locals.contains x = true) ∧
    (((p.unfold i).assigned x).whenTrue = true → ((p.unfold i).assigned x).whenFalse = true →
      m'.locals.contains x = true) := by
  rw [Pool.eval_eq (Pool.grounded_iff.1 hi)] at h
  have hkept := Term.assigned_sound (List.contains_iff_mem.2 hx) h
  refine ⟨hkept.whenTrue, hkept.whenFalse, fun htrue hfalse => hkept.always ?_⟩
  rw [Assigned.always, htrue, hfalse]
  rfl

/-- With `x` at `-4` the first half assigns the capture `k` and fails, and the test is made again. -/
theorem Pool.retried_surely_assigns : ∃ m', Pool.retried.eval ⟨⟨#["", "x", "i", "k"]⟩, [⟨2⟩]⟩ ⟨8⟩
      ⟨.ofList [(⟨1⟩, .int (-4))], .empty⟩ = .ok (.bool true, m') ∧
    m'.captures = .ofList [(⟨3⟩, .int (-4))] ∧ ((Pool.retried.unfold ⟨8⟩).assigned ⟨2⟩).whenTrue = true ∧
    m'.locals.contains ⟨2⟩ = true := by
  have heval : Pool.retried.eval ⟨⟨#["", "x", "i", "k"]⟩, [⟨2⟩]⟩ ⟨8⟩ ⟨.ofList [(⟨1⟩, .int (-4))], .empty⟩ =
      .ok (.bool true, ⟨.ofList [(⟨1⟩, .int (-4)), (⟨2⟩, .int (-4))], .ofList [(⟨3⟩, .int (-4))]⟩) := by
    rw [Pool.eval_eq (Pool.grounded_iff.1 Pool.retried_grounded)]
    rfl
  refine ⟨_, heval, rfl, by decide, ?_⟩
  exact (Pool.eval_surely_assigns Pool.retried_grounded heval (by simp)).1 (by decide) rfl

end QueryPipeline
