import QueryPipeline.Proofs.Eval

/-!
# What an evaluation comes to

`Term.Reaches` says which nodes of an expression an evaluation comes to, and with which memory: the right operand of
a connective, for one, only if the left one leaves the answer open.  `Term.Touches` says where it reads a variable
or assigns one.

Whatever happens to variables happens at such a place.  An evaluation that finds a variable without a value fails
at one (`Term.eval_error`), and a capture that is changed is changed at one (`Term.eval_captures`).
-/

namespace QueryPipeline

/-! ### Faults of values -/

/-- The fault is about a value that an operation cannot take. -/
def Fault.OfValue : Fault → Prop
  | .typeMismatch _ _ | .notASequence _ | .missingPart _ _ | .overflow => True
  | .unbound _ | .shapeMismatch _ => False

theorem Value.asBool_fault {v : Value} {f : Fault} (h : v.asBool = .error f) : f.OfValue := by
  cases v <;> cases h <;> trivial

private theorem Value.asInt_fault {v : Value} {f : Fault} (h : v.asInt = .error f) : f.OfValue := by
  cases v <;> cases h <;> trivial

private theorem Value.ofInt_fault {n : Int} {f : Fault} (h : Value.ofInt n = .error f) : f.OfValue := by
  unfold Value.ofInt at h
  split at h <;> cases h
  trivial

private theorem Value.parseInt_fault {v : Value} {f : Fault} (h : v.parseInt = .error f) : f.OfValue := by
  cases v <;> cases h <;> trivial

theorem Value.part_fault {v : Value} {k : Nat} {f : Fault} (h : v.part k = .error f) : f.OfValue := by
  unfold Value.part at h
  split at h <;> cases h
  trivial

theorem Value.elements_fault {v : Value} {f : Fault} (h : v.elements = .error f) : f.OfValue := by
  cases v <;> cases h <;> trivial

private theorem Operator.onInts_fault {op : Operator} {m n : Int} {f : Fault} (h : op.onInts m n = .error f) :
    f.OfValue := by
  cases op with
  | add | sub | mul => exact Value.ofInt_fault h
  | eq | notEq | lt | gt => cases h

private theorem Operator.apply_fault {op : Operator} {v w : Value} {f : Fault} (h : op.apply v w = .error f) :
    f.OfValue := by
  unfold Operator.apply at h
  split at h
  · cases h
  · cases h
  · cases h
  · exact Operator.onInts_fault h
  · cases h; trivial
  · cases h; trivial

/-! ### Places of an evaluation -/

namespace Term

/-- Evaluating a term from a memory goes on to evaluate one of its operands from a memory. -/
inductive Enters (g : Setting) : Term → Memory → Term → Memory → Prop
  | left {o c l r m} : Enters g (connective o c l r) m l m
  | right {o c l r m a m'} (h : l.eval g m = .ok (.bool a, m')) (ha : c.isOpen a = true) :
    Enters g (connective o c l r) m r m'
  | operatorLeft {o op l r m} : Enters g (operator o op l r) m l m
  | operatorRight {o op l r m v m'} (h : l.eval g m = .ok (v, m')) : Enters g (operator o op l r) m r m'
  | not {o e m} : Enters g (not o e) m e m
  | neg {o e m} : Enters g (neg o e) m e m
  | test {o q e x m} : Enters g (test o q e x) m e m
  | assign {o x e m} : Enters g (assign o x e) m e m
  | item {o kind done e rest m vs m'} (h : Eval.each (Term.eval g) done m = .ok (vs, m')) :
    Enters g (row o kind (done ++ e :: rest)) m e m'
  | part {o e k m} : Enters g (part o e k) m e m

/-- Evaluating a term from a memory comes to evaluating a node of it from a memory. -/
inductive Reaches (g : Setting) : Term → Memory → Term → Memory → Prop
  | here {t m} : Reaches g t m t m
  | into {t m e m₁ u m'} (h : Enters g t m e m₁) (h' : Reaches g e m₁ u m') : Reaches g t m u m'

/-- Evaluating a term from a memory comes to a node that reads or assigns a variable, and the memory at that
moment.  An assignment is made when its value is there. -/
inductive Touches (g : Setting) (t : Term) (m : Memory) : Term → Memory → Prop
  | read {o x m'} (h : Reaches g t m (ident o x) m') : Touches g t m (ident o x) m'
  | assign {o x e m₁ v m'} (h : Reaches g t m (.assign o x e) m₁) (he : e.eval g m₁ = .ok (v, m')) :
    Touches g t m (.assign o x e) m'

variable {g : Setting}

private theorem Enters.mem_operands {t e : Term} {m m' : Memory} (h : Enters g t m e m') : e ∈ t.operands := by
  cases h <;> simp [operands]

theorem Reaches.mem_preorder {t u : Term} {m m' : Memory} (h : Reaches g t m u m') : u ∈ t.preorder := by
  induction h with
  | here => exact self_mem_preorder _
  | into h _ ih => exact mem_preorder_of_operand h.mem_operands ih

theorem Touches.mem_preorder {t u : Term} {m m' : Memory} (h : Touches g t m u m') : u ∈ t.preorder := by
  cases h with
  | read h => exact h.mem_preorder
  | assign h _ => exact h.mem_preorder

private theorem Touches.of_enters {t e u : Term} {m m₁ m' : Memory} (h : Enters g t m e m₁) (hu : Touches g e m₁ u m') :
    Touches g t m u m' := by
  cases hu with
  | read h' => exact .read (.into h h')
  | assign h' he => exact .assign (.into h h') he

/-! ### Where an evaluation fails -/

/-- Evaluating the term comes to a variable without a value: it is none of the stage's variables so far, and it is
bound by a test of the stage, or read and no capture. -/
def Misses (g : Setting) (t : Term) (m : Memory) (x : Symbol) : Prop :=
  ∃ u b m', Touches g t m u m' ∧ u.mention? = some (x, b) ∧ m'.locals.get? x = none ∧
    (g.declared.contains x = true ∨ (b = false ∧ m'.captures.get? x = none))

/-- The causes of a failure: there is no expression, a value does not fit, or a variable has no value. -/
def FailsWith (g : Setting) (t : Term) (m : Memory) (e : Failure Fault) : Prop :=
  e = .dangling ∨ (∃ f, e = .error f ∧ f.OfValue) ∨ ∃ x, e = .error (g.unbound x) ∧ Misses g t m x

private theorem Misses.of_enters {t e : Term} {m m' : Memory} {x : Symbol} (h : Enters g t m e m')
    (hx : Misses g e m' x) : Misses g t m x := by
  obtain ⟨u, b, m₁, hu, hm⟩ := hx
  exact ⟨u, b, m₁, hu.of_enters h, hm⟩

private theorem FailsWith.of_enters {t u : Term} {m m' : Memory} {e : Failure Fault} (h : Enters g t m u m')
    (he : FailsWith g u m' e) : FailsWith g t m e := by
  rcases he with he | he | ⟨x, he, hx⟩
  · exact Or.inl he
  · exact Or.inr (Or.inl he)
  · exact Or.inr (Or.inr ⟨x, he, hx.of_enters h⟩)

private theorem FailsWith.of_value {α : Type} {t : Term} {m m' : Memory} {x : Except Fault α} {e : Failure Fault}
    (hx : ∀ f, x = .error f → f.OfValue) (h : (Computation.ofExcept x : Eval α) m' = .error e) :
    FailsWith g t m e := by
  obtain ⟨f, hf, rfl⟩ := Computation.ofExcept_eq_error.1 h
  exact Or.inr (Or.inl ⟨f, rfl, hx f hf⟩)

private theorem each_eq_error {σ ε : Type} {f : ε → Computation σ Value} {es : List ε} {s : σ} {e : Failure Fault}
    (h : Eval.each f es s = .error e) :
    ∃ done a rest vs s', es = done ++ a :: rest ∧ Eval.each f done s = .ok (vs, s') ∧ f a s' = .error e := by
  induction es generalizing s with
  | nil => cases h
  | cons a es ih =>
    rcases Computation.bind_eq_error.1 h with h | ⟨v, s₁, hv, h⟩
    · exact ⟨[], a, es, [], s, rfl, rfl, h⟩
    · rcases Computation.bind_eq_error.1 h with h | ⟨vs, s₂, _, h⟩
      · obtain ⟨done, a', rest, ws, s', rfl, hd, ha⟩ := ih h
        refine ⟨a :: done, a', rest, v :: ws, s', rfl, ?_, ha⟩
        exact Computation.bind_eq_ok.2 ⟨v, s₁, hv, Computation.bind_eq_ok.2 ⟨ws, s', hd, rfl⟩⟩
      · cases h

private theorem read_error {x : Symbol} {m : Memory} {e : Failure Fault} (h : Eval.read g x m = .error e) :
    e = .error (g.unbound x) ∧ m.locals.get? x = none ∧
      (g.declared.contains x = true ∨ m.captures.get? x = none) := by
  have h' : (Computation.ofOption (g.unbound x) (m.find? g x) : Eval Value) m = .error e := h
  obtain ⟨hn, he⟩ := Computation.ofOption_eq_error.1 h'
  rw [Memory.find?, Option.or_eq_none_iff] at hn
  refine ⟨he, hn.1, ?_⟩
  cases hd : g.declared.contains x with
  | true => exact Or.inl rfl
  | false => rw [hd] at hn; exact Or.inr hn.2

private theorem store_error {x : Symbol} {v : Value} {m : Memory} {e : Failure Fault}
    (h : Eval.store g x v m = .error e) :
    e = .error (g.unbound x) ∧ m.locals.get? x = none ∧ g.declared.contains x = true := by
  rw [Eval.store_apply] at h
  cases hl : m.locals.contains x with
  | true =>
    rw [hl] at h
    cases h
  | false =>
    cases hd : g.declared.contains x with
    | true =>
      rw [hl, hd] at h
      exact ⟨(Except.error.inj h).symm, by simpa [Store.contains] using hl, rfl⟩
    | false =>
      rw [hl, hd] at h
      cases h

/-- An evaluation that fails does so for one of the causes. -/
theorem eval_error {t : Term} {m : Memory} {e : Failure Fault} (h : t.eval g m = .error e) : FailsWith g t m e := by
  induction t using operandInduction generalizing m with
  | step t ih =>
    -- what an operand fails with, the term fails with
    have operand : ∀ {u m'}, Enters g t m u m' → u.eval g m' = .error e → FailsWith g t m e :=
      fun hu he => (ih _ hu.mem_operands he).of_enters hu
    cases t with
    | hole => exact Or.inl (Except.error.inj h).symm
    | literal o l => cases h
    | ident o x =>
      obtain ⟨he, hl, hc⟩ := read_error h
      refine Or.inr (Or.inr ⟨x, he, _, false, m, .read .here, rfl, hl, ?_⟩)
      exact hc.imp_right fun hc => ⟨rfl, hc⟩
    | connective o c l r =>
      rcases Computation.bind_eq_error.1 h with h₁ | ⟨v, m₁, hv, h₁⟩
      · exact operand .left h₁
      rcases Computation.bind_eq_error.1 h₁ with h₂ | ⟨a, m₂, ha, h₂⟩
      · exact .of_value (fun f => Value.asBool_fault) h₂
      obtain ⟨ha, rfl⟩ := Computation.ofExcept_eq_ok.1 ha
      obtain rfl := Value.asBool_eq_ok.1 ha
      cases hopen : c.isOpen a with
      | true =>
        simp only [hopen] at h₂
        rcases Computation.bind_eq_error.1 h₂ with h₃ | ⟨w, m₃, _, h₃⟩
        · exact operand (.right hv hopen) h₃
        rcases Computation.bind_eq_error.1 h₃ with h₄ | ⟨b, m₄, _, h₄⟩
        · exact .of_value (fun f => Value.asBool_fault) h₄
        · cases h₄
      | false =>
        simp only [hopen] at h₂
        cases h₂
    | operator o op l r =>
      rcases Computation.bind_eq_error.1 h with h | ⟨v, m₁, hv, h⟩
      · exact operand .operatorLeft h
      rcases Computation.bind_eq_error.1 h with h | ⟨w, m₂, _, h⟩
      · exact operand (.operatorRight hv) h
      · exact .of_value (fun f => Operator.apply_fault) h
    | not o u =>
      rcases Computation.bind_eq_error.1 h with h | ⟨v, m₁, _, h⟩
      · exact operand .not h
      rcases Computation.bind_eq_error.1 h with h | ⟨b, m₂, _, h⟩
      · exact .of_value (fun f => Value.asBool_fault) h
      · cases h
    | neg o u =>
      rcases Computation.bind_eq_error.1 h with h | ⟨v, m₁, _, h⟩
      · exact operand .neg h
      rcases Computation.bind_eq_error.1 h with h | ⟨n, m₂, _, h⟩
      · exact .of_value (fun f => Value.asInt_fault) h
      · exact .of_value (fun f => Value.ofInt_fault) h
    | test o q u x =>
      rcases Computation.bind_eq_error.1 h with h | ⟨v, m₁, _, h⟩
      · exact operand .test h
      cases q with
      | hasType ty =>
        by_cases hb : (ty.accepts v && x.isPresent) = true
        · simp only [Test.run, if_pos hb] at h
          cases h
        · simp only [Test.run, if_neg hb] at h
          cases h
      | parsesInt =>
        rcases Computation.bind_eq_error.1 h with h | ⟨n, m₂, _, h⟩
        · exact .of_value (fun f => Value.parseInt_fault) h
        · cases h
    | assign o x u =>
      rcases Computation.bind_eq_error.1 h with h | ⟨v, m₁, hv, h⟩
      · exact operand .assign h
      rcases Computation.bind_eq_error.1 h with h | ⟨_, m₂, _, h⟩
      · obtain ⟨he, hl, hd⟩ := store_error h
        exact Or.inr (Or.inr ⟨x, he, _, true, m₁, .assign .here hv, rfl, hl, Or.inl hd⟩)
      · cases h
    | row o kind items =>
      rw [eval, evalVia, evalAllVia_eq] at h
      rcases Computation.bind_eq_error.1 h with h | ⟨vs, m₁, _, h⟩
      · obtain ⟨done, u, rest, ws, m', rfl, hd, hu⟩ := each_eq_error h
        exact operand (.item hd) hu
      · cases h
    | part o u k =>
      rcases Computation.bind_eq_error.1 h with h | ⟨v, m₁, _, h⟩
      · exact operand .part h
      · exact .of_value (fun f => Value.part_fault) h

/-! ### Where a capture is changed -/

private theorem each_differs {σ ε γ : Type} {f : ε → Computation σ Value} {es : List ε} {s s' : σ} {vs : List Value}
    {φ : σ → γ} (h : Eval.each f es s = .ok (vs, s')) (hne : φ s' ≠ φ s) :
    ∃ done a rest ws s₁ v s₂, es = done ++ a :: rest ∧ Eval.each f done s = .ok (ws, s₁) ∧
      f a s₁ = .ok (v, s₂) ∧ φ s₂ ≠ φ s₁ := by
  induction es generalizing s vs with
  | nil =>
    obtain ⟨_, rfl⟩ := Prod.mk.inj (Except.ok.inj h)
    exact absurd rfl hne
  | cons a es ih =>
    obtain ⟨v, s₁, hv, h⟩ := Computation.bind_eq_ok.1 h
    obtain ⟨vs', s₂, hvs, h⟩ := Computation.bind_eq_ok.1 h
    obtain ⟨_, rfl⟩ := Prod.mk.inj (Except.ok.inj h)
    by_cases h₁ : φ s₁ = φ s
    · obtain ⟨done, a', rest, ws, s₃, w, s₄, rfl, hd, ha, hφ⟩ := ih hvs (by rw [h₁]; exact hne)
      refine ⟨a :: done, a', rest, v :: ws, s₃, w, s₄, rfl, ?_, ha, hφ⟩
      exact Computation.bind_eq_ok.2 ⟨v, s₁, hv, Computation.bind_eq_ok.2 ⟨ws, s₃, hd, rfl⟩⟩
    · exact ⟨[], a, es, [], s, v, s₁, rfl, rfl, hv, h₁⟩

/-- A capture that an evaluation changes is assigned at a place where no variable of the stage has its name. -/
theorem eval_captures {t : Term} {m m' : Memory} {v : Value} {y : Symbol} (h : t.eval g m = .ok (v, m'))
    (hy : m'.captures.get? y ≠ m.captures.get? y) :
    ∃ u m₁, Touches g t m u m₁ ∧ u.mention? = some (y, true) ∧ m₁.locals.get? y = none ∧
      g.declared.contains y = false := by
  induction t using operandInduction generalizing m m' v with
  | step t ih =>
    -- what an operand changes, the term changes
    have operand : ∀ {u m₁ m₂ w}, Enters g t m u m₁ → u.eval g m₁ = .ok (w, m₂) →
        m₂.captures.get? y ≠ m₁.captures.get? y → ∃ u' m₃, Touches g t m u' m₃ ∧ u'.mention? = some (y, true) ∧
          m₃.locals.get? y = none ∧ g.declared.contains y = false := by
      intro u m₁ m₂ w hu hev hne
      obtain ⟨u', m₃, ht, hu'⟩ := ih u hu.mem_operands hev hne
      exact ⟨u', m₃, ht.of_enters hu, hu'⟩
    cases t with
    | hole => cases h
    | literal o l =>
      obtain ⟨_, rfl⟩ := Prod.mk.inj (Except.ok.inj h)
      exact absurd rfl hy
    | ident o x =>
      obtain ⟨_, rfl⟩ := Eval.read_eq_ok.1 h
      exact absurd rfl hy
    | connective o c l r =>
      obtain ⟨a, m₁, hl, ⟨_, _, rfl⟩ | ⟨hopen, b, hr, _⟩⟩ := Eval.connective_eq_ok.1 h
      · exact operand .left hl hy
      · by_cases h₁ : m₁.captures.get? y = m.captures.get? y
        · exact operand (.right hl hopen) hr (by rw [h₁]; exact hy)
        · exact operand .left hl h₁
    | operator o op l r =>
      obtain ⟨a, m₁, hl, h⟩ := Computation.bind_eq_ok.1 h
      obtain ⟨b, m₂, hr, h⟩ := Computation.bind_eq_ok.1 h
      obtain ⟨_, rfl⟩ := Computation.ofExcept_eq_ok.1 h
      by_cases h₁ : m₁.captures.get? y = m.captures.get? y
      · exact operand (.operatorRight hl) hr (by rw [h₁]; exact hy)
      · exact operand .operatorLeft hl h₁
    | not o e =>
      obtain ⟨w, m₁, he, h⟩ := Computation.bind_eq_ok.1 h
      obtain ⟨b, m₂, hb, h⟩ := Computation.bind_eq_ok.1 h
      obtain ⟨_, rfl⟩ := Computation.ofExcept_eq_ok.1 hb
      obtain ⟨_, rfl⟩ := Prod.mk.inj (Except.ok.inj h)
      exact operand .not he hy
    | neg o e =>
      obtain ⟨w, m₁, he, h⟩ := Computation.bind_eq_ok.1 h
      obtain ⟨n, m₂, hn, h⟩ := Computation.bind_eq_ok.1 h
      obtain ⟨_, rfl⟩ := Computation.ofExcept_eq_ok.1 hn
      obtain ⟨_, rfl⟩ := Computation.ofExcept_eq_ok.1 h
      exact operand .neg he hy
    | test o q e x =>
      obtain ⟨w, m₁, he, h⟩ := Computation.bind_eq_ok.1 h
      obtain ⟨b, _, ⟨u, _, hu⟩ | ⟨rfl, _⟩⟩ := Test.run_eq_ok h
      · obtain rfl : { m₁ with locals := m₁.locals.insert x u } = m' := congrArg Prod.snd (Except.ok.inj hu)
        exact operand .test he hy
      · exact operand .test he hy
    | assign o x e =>
      obtain ⟨w, m₁, he, h⟩ := Computation.bind_eq_ok.1 h
      obtain ⟨_, m₂, hs, h⟩ := Computation.bind_eq_ok.1 h
      obtain ⟨_, rfl⟩ := Prod.mk.inj (Except.ok.inj h)
      by_cases h₁ : m₁.captures.get? y = m.captures.get? y
      · rcases Eval.store_eq_ok.1 hs with ⟨_, hm⟩ | ⟨hl, hd, hm⟩
        · rw [hm] at hy
          exact absurd h₁ hy
        · rw [hm, Store.get?_insert] at hy
          by_cases hxy : x = y
          · subst hxy
            exact ⟨_, m₁, .assign .here he, rfl, by simpa [Store.contains] using hl, hd⟩
          · rw [if_neg hxy] at hy
            exact absurd h₁ hy
      · exact operand .assign he h₁
    | row o kind items =>
      rw [eval, evalVia, evalAllVia_eq] at h
      obtain ⟨vs, m₁, hvs, h⟩ := Computation.bind_eq_ok.1 h
      obtain ⟨_, rfl⟩ := Prod.mk.inj (Except.ok.inj h)
      obtain ⟨done, e, rest, ws, m₂, w, m₃, rfl, hd, he, hne⟩ :=
        each_differs (φ := fun m : Memory => m.captures.get? y) hvs hy
      exact operand (.item hd) he hne
    | part o e k =>
      obtain ⟨w, m₁, he, h⟩ := Computation.bind_eq_ok.1 h
      obtain ⟨_, rfl⟩ := Computation.ofExcept_eq_ok.1 h
      exact operand .part he hy

end Term

end QueryPipeline
