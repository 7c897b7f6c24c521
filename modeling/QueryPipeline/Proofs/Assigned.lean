import QueryPipeline.Proofs.Eval

/-!
# Definite assignment is sound

`Term.assigned` says after which results of an expression a variable has surely been assigned.  For a name that
tests of the stage bind, the evaluation keeps to it (`Term.assigned_sound`): after such a result the variable is
one of the stage's variables.  Evaluation never takes a variable or a capture away (`Term.eval_locals_grow`,
`Term.eval_captures_grow`).
-/

namespace QueryPipeline

theorem Store.contains_insert (s : Store) (x y : Symbol) (v : Value) :
    (s.insert x v).contains y = (x == y || s.contains y) := by
  unfold Store.contains
  rw [Store.get?_insert]
  by_cases h : x = y <;> simp [h]

/-! ### Nothing is taken away -/

namespace Term

variable {g : Setting} {t : Term} {m m' : Memory} {v : Value}

theorem eval_locals_grow {y : Symbol} (h : t.eval g m = .ok (v, m')) (hy : m.locals.contains y = true) :
    m'.locals.contains y = true := by
  refine eval_keeps (P := fun m => m.locals.contains y = true) ?_ ?_ hy h
  · intro u _ x _ w m₁ m₂ hm hs
    rcases Eval.store_eq_ok.1 hs with ⟨_, rfl⟩ | ⟨_, _, rfl⟩
    · simp [Store.contains_insert, hm]
    · exact hm
  · intro o q e x _ w m₁ _ hm
    simp [Store.contains_insert, hm]

theorem eval_captures_grow {y : Symbol} (h : t.eval g m = .ok (v, m')) (hy : m.captures.contains y = true) :
    m'.captures.contains y = true := by
  refine eval_keeps (P := fun m => m.captures.contains y = true) ?_ ?_ hy h
  · intro u _ x _ w m₁ m₂ hm hs
    rcases Eval.store_eq_ok.1 hs with ⟨_, rfl⟩ | ⟨_, _, rfl⟩
    · exact hm
    · simp [Store.contains_insert, hm]
  · intro o q e x _ w m₁ _ hm
    exact hm

end Term

/-! ### After a result -/

/-- Whether the variable has surely been assigned after the truth value. -/
def Assigned.after (a : Assigned) (b : Bool) : Bool := if b then a.whenTrue else a.whenFalse

/-- The variable is there after the result, if it has surely been assigned after such a result. -/
structure Assigned.Kept (a : Assigned) (v : Value) (present : Prop) : Prop where
  whenTrue : a.whenTrue = true → v = .bool true → present
  whenFalse : a.whenFalse = true → v = .bool false → present
  always : a.always = true → present

namespace Assigned

theorem Kept.uniformly {b : Bool} {v : Value} {present : Prop} (h : b = true → present) :
    (Assigned.uniformly b).Kept v present :=
  ⟨fun hb _ => h hb, fun hb _ => h hb, fun hb => h (by simpa [Assigned.uniformly, Assigned.always] using hb)⟩

/-- After a truth value it is enough to look at that one. -/
theorem Kept.of_bool {a : Assigned} {b : Bool} {present : Prop}
    (h : a.after b = true → present) : a.Kept (.bool b) present := by
  cases b with
  | true =>
    refine ⟨fun ha _ => h ha, fun _ hv => (by cases hv), fun ha => h ?_⟩
    rw [Assigned.always, Bool.and_eq_true] at ha
    exact ha.1
  | false =>
    refine ⟨fun _ hv => (by cases hv), fun ha _ => h ha, fun ha => h ?_⟩
    rw [Assigned.always, Bool.and_eq_true] at ha
    exact ha.2

theorem Kept.elim {a : Assigned} {b : Bool} {present : Prop} (h : a.Kept (.bool b) present)
    (ha : a.after b = true) : present := by
  cases b with
  | true => exact h.whenTrue ha rfl
  | false => exact h.whenFalse ha rfl

end Assigned

namespace Term

variable {g : Setting}

private theorem each_kept {ts : List Term} {m m' : Memory} {vs : List Value} {x : Symbol}
    (h : Eval.each (Term.eval g) ts m = .ok (vs, m'))
    (ih : ∀ t ∈ ts, ∀ {m m' v}, t.eval g m = .ok (v, m') → (t.assigned x).Kept v (m'.locals.contains x = true))
    (hx : m.locals.contains x = true ∨ someAssigns x ts = true) : m'.locals.contains x = true := by
  induction ts generalizing m vs with
  | nil =>
    obtain ⟨_, rfl⟩ := Prod.mk.inj (Except.ok.inj h)
    simpa [someAssigns] using hx
  | cons t ts ihs =>
    obtain ⟨v, m₁, hv, h⟩ := Computation.bind_eq_ok.1 h
    obtain ⟨ws, m₂, hws, h⟩ := Computation.bind_eq_ok.1 h
    obtain ⟨_, rfl⟩ := Prod.mk.inj (Except.ok.inj h)
    refine ihs hws (fun u hu => ih u (by simp [hu])) ?_
    rcases hx with hx | hx
    · exact Or.inl (eval_locals_grow hv hx)
    · rw [someAssigns, Bool.or_eq_true] at hx
      exact hx.imp_left fun ha => (ih t (by simp) hv).always ha

/-- After a result after which a name bound by tests of the stage has surely been assigned, it has a value. -/
theorem assigned_sound {t : Term} {x : Symbol} (hx : g.declared.contains x = true) {m m' : Memory} {v : Value}
    (h : t.eval g m = .ok (v, m')) : (t.assigned x).Kept v (m'.locals.contains x = true) := by
  induction t using operandInduction generalizing m m' v with
  | step t ih =>
    cases t with
    | hole => cases h
    | literal o l | ident o y => exact .uniformly fun hb => by cases hb
    | connective o c l r =>
      obtain ⟨a, m₁, hl, h₁⟩ := Eval.connective_eq_ok.1 h
      have kl := ih l (by simp [operands]) hl
      rcases h₁ with ⟨hopen, rfl, rfl⟩ | ⟨hopen, b, hr, rfl⟩
      · -- the left operand decides
        refine .of_bool fun ha => kl.elim ?_
        cases c <;> cases a <;> simp_all [Connective.isOpen, assigned, Assigned.after, Assigned.and, Assigned.or]
      · have kr := ih r (by simp [operands]) hr
        refine .of_bool fun ha => ?_
        have hor : (assigned x l).after a = true ∨ (assigned x r).after b = true := by
          cases c <;> cases a <;> cases b <;>
            simp_all [Connective.isOpen, assigned, Assigned.after, Assigned.and, Assigned.or]
        rcases hor with hl' | hr'
        · exact eval_locals_grow hr (kl.elim hl')
        · exact kr.elim hr'
    | operator o op l r =>
      obtain ⟨a, m₁, hl, h₁⟩ := Computation.bind_eq_ok.1 h
      obtain ⟨b, m₂, hr, h₂⟩ := Computation.bind_eq_ok.1 h₁
      obtain ⟨_, rfl⟩ := Computation.ofExcept_eq_ok.1 h₂
      refine .uniformly fun hb => ?_
      rcases Bool.or_eq_true_iff.1 hb with hb | hb
      · exact eval_locals_grow hr ((ih l (by simp [operands]) hl).always hb)
      · exact (ih r (by simp [operands]) hr).always hb
    | not o e =>
      obtain ⟨w, m₁, he, h₁⟩ := Computation.bind_eq_ok.1 h
      obtain ⟨b, m₂, hb, h₂⟩ := Computation.bind_eq_ok.1 h₁
      obtain ⟨hb, rfl⟩ := Computation.ofExcept_eq_ok.1 hb
      obtain rfl := Value.asBool_eq_ok.1 hb
      obtain ⟨rfl, rfl⟩ := Prod.mk.inj (Except.ok.inj h₂)
      refine .of_bool fun ha => (ih e (by simp [operands]) he).elim ?_
      cases b <;> exact ha
    | neg o e =>
      obtain ⟨w, m₁, he, h₁⟩ := Computation.bind_eq_ok.1 h
      obtain ⟨n, m₂, hn, h₂⟩ := Computation.bind_eq_ok.1 h₁
      obtain ⟨_, rfl⟩ := Computation.ofExcept_eq_ok.1 hn
      obtain ⟨_, rfl⟩ := Computation.ofExcept_eq_ok.1 h₂
      exact .uniformly (ih e (by simp [operands]) he).always
    | test o q e y =>
      obtain ⟨w, m₁, he, h₁⟩ := Computation.bind_eq_ok.1 h
      have ke := ih e (by simp [operands]) he
      obtain ⟨b, rfl, ⟨u, _, hu⟩ | ⟨rfl, hy⟩⟩ := Test.run_eq_ok h₁
      · obtain rfl : { m₁ with locals := m₁.locals.insert y u } = m' := congrArg Prod.snd (Except.ok.inj hu)
        refine .of_bool fun ha => ?_
        have hor : (assigned x e).always = true ∨ y = x := by
          cases b with
          | true =>
            have ha' : ((assigned x e).always || (y.isPresent && y == x)) = true := ha
            simp only [Bool.or_eq_true, Bool.and_eq_true, beq_iff_eq] at ha'
            exact ha'.imp_right And.right
          | false => exact Or.inl ha
        rcases hor with ha | rfl
        · simp [Store.contains_insert, ke.always ha]
        · simp [Store.contains_insert]
      · refine .of_bool fun ha => ke.always ?_
        cases b <;> simp_all [assigned, Assigned.after]
    | assign o y e =>
      obtain ⟨w, m₁, he, h₁⟩ := Computation.bind_eq_ok.1 h
      obtain ⟨_, m₂, hs, h₂⟩ := Computation.bind_eq_ok.1 h₁
      obtain ⟨_, rfl⟩ := Prod.mk.inj (Except.ok.inj h₂)
      refine .uniformly fun hb => ?_
      have ke := ih e (by simp [operands]) he
      rcases Eval.store_eq_ok.1 hs with ⟨hl, rfl⟩ | ⟨hl, hd, rfl⟩
      · rcases Bool.or_eq_true_iff.1 hb with hb | hb
        · simp [Store.contains_insert, ke.always hb]
        · simp [Store.contains_insert, hb]
      · rcases Bool.or_eq_true_iff.1 hb with hb | hb
        · exact ke.always hb
        · -- a name that tests bind is never assigned among the captures
          rw [beq_iff_eq.1 hb] at hd
          rw [hx] at hd
          cases hd
    | row o kind items =>
      have h' : Eval.row kind (evalAllVia g.names g.access items) m = .ok (v, m') := h
      rw [evalAllVia_eq] at h'
      obtain ⟨vs, m₁, hvs, h₁⟩ := Computation.bind_eq_ok.1 h'
      obtain ⟨_, rfl⟩ := Prod.mk.inj (Except.ok.inj h₁)
      exact .uniformly fun hb => each_kept hvs (fun t ht _ _ _ => ih t ht) (Or.inr hb)
    | part o e k =>
      obtain ⟨w, m₁, he, h₁⟩ := Computation.bind_eq_ok.1 h
      obtain ⟨_, rfl⟩ := Computation.ofExcept_eq_ok.1 h₁
      exact .uniformly (ih e (by simp [operands]) he).always

end Term

end QueryPipeline
