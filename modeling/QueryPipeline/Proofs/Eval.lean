import QueryPipeline.Flow.Basic
import QueryPipeline.Proofs.Computation

/-!
# Evaluation over two kinds of memory

An expression reaches its variables in three ways: it reads one, it assigns one, and a test binds one.  If two
kinds of memory go in step along all the ways that an expression takes, evaluating the expression goes in step
(`Term.evalVia_inStep`).  With one kind of memory this says what an evaluation keeps (`Term.eval_keeps`).
-/

namespace QueryPipeline

namespace Term

/-! ### Induction by operands -/

private theorem size_le_sizes {t : Term} {ts : List Term} (h : t ∈ ts) : t.size ≤ sizes ts := by
  induction ts with
  | nil => cases h
  | cons u ts ih =>
    rw [sizes]
    rcases List.mem_cons.1 h with rfl | h
    · omega
    · have := ih h; omega

theorem size_lt_of_mem_operands {t u : Term} (h : u ∈ t.operands) : u.size < t.size := by
  have := size_le_sizes h
  rw [size_eq t]
  omega

/-- What holds of a term if it holds of its operands holds of all terms. -/
theorem operandInduction {P : Term → Prop} (step : ∀ t : Term, (∀ u ∈ t.operands, P u) → P t) (t : Term) : P t :=
  step t fun u _ => operandInduction step u
termination_by t.size
decreasing_by exact size_lt_of_mem_operands ‹_›

private theorem mem_preorders {t : Term} {ts : List Term} : t ∈ preorders ts ↔ ∃ u ∈ ts, t ∈ u.preorder := by
  induction ts with
  | nil => simp [preorders]
  | cons u ts ih => simp [preorders, ih]

theorem mem_preorder_iff {t u : Term} : u ∈ t.preorder ↔ u = t ∨ ∃ e ∈ t.operands, u ∈ e.preorder := by
  rw [preorder_eq, List.mem_cons, mem_preorders]

theorem self_mem_preorder (t : Term) : t ∈ t.preorder := mem_preorder_iff.2 (Or.inl rfl)

theorem mem_preorder_of_operand {t e u : Term} (he : e ∈ t.operands) (hu : u ∈ e.preorder) : u ∈ t.preorder :=
  mem_preorder_iff.2 (Or.inr ⟨e, he, hu⟩)

end Term

/-! ### Ways in step -/

/-- The values to which a test can bind its variable. -/
def Test.Binds : Test → Symbol → Value → Prop
  | .hasType ty, x, v => x.isPresent = true ∧ ty.accepts v = true
  | .parsesInt, _, v => ∃ n, v = .int n

theorem Test.Binds.ne_null {q : Test} {x : Symbol} {v : Value} (h : q.Binds x v) : v ≠ .null := by
  rintro rfl
  cases q with
  | hasType ty =>
    have haccepts : ty.accepts .null = true := h.2
    rw [Ty.accepts] at haccepts
    cases haccepts
  | parsesInt =>
    obtain ⟨n, hn⟩ := h
    cases hn

variable {σ τ : Type}

open QueryPipeline.Computation (InStep)

/-- The two kinds of memory go in step along all ways that the term takes to its variables. -/
structure Access.InStepOn (R : σ → τ → Prop) (a : Access σ) (b : Access τ) (t : Term) : Prop where
  read : ∀ u ∈ t.preorder, ∀ x, u.mention? = some (x, false) → InStep R (a.read x) (b.read x)
  assign : ∀ u ∈ t.preorder, ∀ x, u.mention? = some (x, true) → ∀ v, InStep R (a.assign x v) (b.assign x v)
  bind : ∀ o q e x, Term.test o q e x ∈ t.preorder → ∀ v, q.Binds x v → InStep R (a.bind x v) (b.bind x v)

theorem Access.InStepOn.operand {R : σ → τ → Prop} {a : Access σ} {b : Access τ} {t e : Term}
    (h : a.InStepOn R b t) (he : e ∈ t.operands) : a.InStepOn R b e where
  read u hu := h.read u (Term.mem_preorder_of_operand he hu)
  assign u hu := h.assign u (Term.mem_preorder_of_operand he hu)
  bind o q e' x hu := h.bind o q e' x (Term.mem_preorder_of_operand he hu)

private theorem Test.run_inStep {R : σ → τ → Prop} {f : Symbol → Value → Computation σ Unit}
    {g : Symbol → Value → Computation τ Unit} (q : Test) (x : Symbol) (v : Value)
    (h : ∀ w, q.Binds x w → InStep R (f x w) (g x w)) : InStep R (q.run f x v) (q.run g x v) := by
  cases q with
  | hasType ty =>
    simp only [Test.run]
    by_cases hb : (ty.accepts v && x.isPresent) = true
    · rw [if_pos hb, if_pos hb]
      simp only [Bool.and_eq_true] at hb
      exact .bind (h v ⟨hb.2, hb.1⟩) fun _ => .pure _
    · rw [if_neg hb, if_neg hb]
      exact .bind (.pure _) fun _ => .pure _
  | parsesInt =>
    exact .bind (.ofExcept _) fun n => .bind (h _ ⟨_, rfl⟩) fun _ => .pure _

private theorem Eval.connective_inStep {R : σ → τ → Prop} (c : Connective) {l r : Computation σ Value}
    {l' r' : Computation τ Value} (hl : InStep R l l') (hr : InStep R r r') :
    InStep R (Eval.connective c l r) (Eval.connective c l' r') := by
  refine .bind hl fun v => .bind (.ofExcept _) fun a => ?_
  cases c.isOpen a with
  | true => exact .bind hr fun w => .bind (.ofExcept _) fun b => .pure _
  | false => exact .pure _

/-- Evaluation goes in step where the ways to the variables do. -/
theorem Term.evalVia_inStep {R : σ → τ → Prop} {a : Access σ} {b : Access τ} (names : SymbolTable) (t : Term)
    (h : a.InStepOn R b t) : InStep R (t.evalVia names a) (t.evalVia names b) := by
  induction t using operandInduction with
  | step t ih =>
    have ih : ∀ u ∈ t.operands, InStep R (u.evalVia names a) (u.evalVia names b) :=
      fun u hu => ih u hu (h.operand hu)
    cases t with
    | hole => exact .throw _
    | literal o l => exact .pure _
    | ident o x => exact h.read _ (self_mem_preorder _) x rfl
    | connective o c l r => exact Eval.connective_inStep c (ih l (by simp [operands])) (ih r (by simp [operands]))
    | operator o op l r =>
      exact .bind (ih l (by simp [operands])) fun v => .bind (ih r (by simp [operands])) fun w => .ofExcept _
    | not o e => exact .bind (ih e (by simp [operands])) fun v => .bind (.ofExcept _) fun b => .pure _
    | neg o e => exact .bind (ih e (by simp [operands])) fun v => .bind (.ofExcept _) fun n => .ofExcept _
    | test o q e x =>
      refine .bind (ih e (by simp [operands])) fun v => ?_
      exact Test.run_inStep q x v (h.bind o q e x (self_mem_preorder _))
    | assign o x e =>
      refine .bind (ih e (by simp [operands])) fun v => ?_
      exact .bind (h.assign _ (self_mem_preorder _) x rfl v) fun _ => .pure v
    | row o kind items =>
      rw [evalVia, evalVia, evalAllVia_eq, evalAllVia_eq]
      exact .bind (.each ih) fun vs => .pure _
    | part o e k => exact .bind (ih e (by simp [operands])) fun v => .ofExcept _

/-! ### When a node succeeds -/

theorem Value.asBool_eq_ok {v : Value} {b : Bool} : v.asBool = .ok b ↔ v = .bool b := by
  cases v <;> simp [Value.asBool]

theorem Eval.connective_eq_ok {c : Connective} {l r : Computation σ Value} {s s' : σ} {v : Value} :
    Eval.connective c l r s = .ok (v, s') ↔ ∃ a s₁, l s = .ok (.bool a, s₁) ∧
      ((c.isOpen a = false ∧ v = .bool a ∧ s₁ = s') ∨
        (c.isOpen a = true ∧ ∃ b, r s₁ = .ok (.bool b, s') ∧ v = .bool b)) := by
  constructor
  · intro h
    obtain ⟨w, s₁, hl, h₁⟩ := Computation.bind_eq_ok.1 h
    obtain ⟨a, s₂, ha, h₂⟩ := Computation.bind_eq_ok.1 h₁
    obtain ⟨ha, rfl⟩ := Computation.ofExcept_eq_ok.1 ha
    obtain rfl := Value.asBool_eq_ok.1 ha
    refine ⟨a, s₁, hl, ?_⟩
    cases hopen : c.isOpen a with
    | false =>
      simp only [hopen] at h₂
      obtain ⟨rfl, rfl⟩ := Prod.mk.inj (Except.ok.inj h₂)
      exact Or.inl ⟨rfl, rfl, rfl⟩
    | true =>
      simp only [hopen] at h₂
      obtain ⟨w, s₃, hr, h₃⟩ := Computation.bind_eq_ok.1 h₂
      obtain ⟨b, s₄, hb, h₄⟩ := Computation.bind_eq_ok.1 h₃
      obtain ⟨hb, rfl⟩ := Computation.ofExcept_eq_ok.1 hb
      obtain rfl := Value.asBool_eq_ok.1 hb
      obtain ⟨rfl, rfl⟩ := Prod.mk.inj (Except.ok.inj h₄)
      exact Or.inr ⟨rfl, b, hr, rfl⟩
  · rintro ⟨a, s₁, hl, h⟩
    refine Computation.bind_eq_ok.2 ⟨_, s₁, hl, Computation.bind_eq_ok.2 ⟨a, s₁, rfl, ?_⟩⟩
    rcases h with ⟨hopen, rfl, rfl⟩ | ⟨hopen, b, hr, rfl⟩
    · simp [hopen]
    · simp only [hopen]
      exact Computation.bind_eq_ok.2 ⟨_, s', hr, Computation.bind_eq_ok.2 ⟨b, s', rfl, rfl⟩⟩

theorem Test.run_eq_ok {q : Test} {bind : Symbol → Value → Computation σ Unit} {x : Symbol} {v w : Value}
    {s s' : σ} (h : q.run bind x v s = .ok (w, s')) :
    ∃ b, w = .bool b ∧
      ((∃ u, q.Binds x u ∧ bind x u s = .ok ((), s')) ∨ (s = s' ∧ (b = true → x.isPresent = false))) := by
  cases q with
  | hasType ty =>
    simp only [Test.run] at h
    by_cases hb : (ty.accepts v && x.isPresent) = true
    · rw [if_pos hb] at h
      obtain ⟨_, s₁, hbind, h⟩ := Computation.bind_eq_ok.1 h
      obtain ⟨rfl, rfl⟩ := Prod.mk.inj (Except.ok.inj h)
      rw [Bool.and_eq_true] at hb
      exact ⟨_, rfl, Or.inl ⟨v, ⟨hb.2, hb.1⟩, hbind⟩⟩
    · rw [if_neg hb] at h
      obtain ⟨rfl, rfl⟩ := Prod.mk.inj (Except.ok.inj h)
      refine ⟨_, rfl, Or.inr ⟨rfl, fun ht => ?_⟩⟩
      simpa [ht] using hb
  | parsesInt =>
    obtain ⟨n, s₁, hn, h⟩ := Computation.bind_eq_ok.1 h
    obtain ⟨_, rfl⟩ := Computation.ofExcept_eq_ok.1 hn
    obtain ⟨_, s₂, hbind, h⟩ := Computation.bind_eq_ok.1 h
    obtain ⟨rfl, rfl⟩ := Prod.mk.inj (Except.ok.inj h)
    exact ⟨_, rfl, Or.inl ⟨_, ⟨_, rfl⟩, hbind⟩⟩

/-! ### What an evaluation keeps -/

private theorem InStep.of_keeps {α : Type} {P : σ → Prop} {x : Computation σ α}
    (h : ∀ s a s', P s → x s = .ok (a, s') → P s') : InStep (fun s t => s = t ∧ P s) x x := by
  rintro s _ ⟨rfl, hs⟩
  cases hx : x s with
  | ok p => exact .ok ⟨rfl, h s p.1 p.2 hs hx⟩
  | error e => exact .error e

theorem Eval.read_eq_ok {g : Setting} {x : Symbol} {m m' : Memory} {v : Value} :
    Eval.read g x m = .ok (v, m') ↔ m.find? g x = some v ∧ m = m' := by
  show (Computation.ofOption (g.unbound x) (m.find? g x) : Eval Value) m = _ ↔ _
  rw [Computation.ofOption_eq_ok]

theorem Eval.store_apply (g : Setting) (x : Symbol) (v : Value) (m : Memory) :
    Eval.store g x v m =
      if m.locals.contains x then .ok ((), { m with locals := m.locals.insert x v })
      else if g.declared.contains x then .error (.error (g.unbound x))
      else .ok ((), { m with captures := m.captures.insert x v }) := by
  show (if m.locals.contains x then set { m with locals := m.locals.insert x v }
    else if g.declared.contains x then Computation.fail (g.unbound x)
    else set { m with captures := m.captures.insert x v } : Eval Unit) m = _
  split
  · rfl
  · split <;> rfl

theorem Eval.store_eq_ok {g : Setting} {x : Symbol} {v : Value} {m m' : Memory} {a : Unit} :
    Eval.store g x v m = .ok (a, m') ↔
      (m.locals.contains x = true ∧ m' = { m with locals := m.locals.insert x v }) ∨
      (m.locals.contains x = false ∧ g.declared.contains x = false ∧
        m' = { m with captures := m.captures.insert x v }) := by
  rw [Eval.store_apply]
  cases m.locals.contains x with
  | true => simp [eq_comm]
  | false => cases g.declared.contains x <;> simp [eq_comm]

/-- An evaluation keeps what the assignments and the tests of the term keep. -/
theorem Term.eval_keeps {P : Memory → Prop} {g : Setting} {t : Term}
    (hassign : ∀ u ∈ t.preorder, ∀ x, u.mention? = some (x, true) → ∀ v m m', P m →
      Eval.store g x v m = .ok ((), m') → P m')
    (hbind : ∀ o q e x, test o q e x ∈ t.preorder → ∀ v m, q.Binds x v → P m →
      P { m with locals := m.locals.insert x v })
    {m m' : Memory} {v : Value} (hm : P m) (h : t.eval g m = .ok (v, m')) : P m' := by
  refine InStep.keeps (evalVia_inStep g.names t ⟨?_, ?_, ?_⟩) hm h
  · intro u _ x _
    refine InStep.of_keeps fun s a s' hs hx => ?_
    rw [← (Eval.read_eq_ok.1 hx).2]
    exact hs
  · intro u hu x hx w
    exact InStep.of_keeps fun s a s' hs h' => hassign u hu x hx w s s' hs h'
  · intro o q e x hu w hw
    refine InStep.of_keeps fun s a s' hs h' => ?_
    obtain rfl : { s with locals := s.locals.insert x w } = s' := congrArg Prod.snd (Except.ok.inj h')
    exact hbind o q e x hu w s hw hs

end QueryPipeline
