import QueryPipeline.Run.Pipeline

/-!
# Laws of computations

When a computation that goes on with another one succeeds or fails (`bind_eq_ok`, `bind_eq_error`, for those without a
state in `Except` and for those with one), and what it means that two computations over different kinds of state go in
step (`InStep`): from related states both end with the same failure, or both succeed with the same result and related
states.  A computation that goes in step with itself along a predicate keeps the predicate (`InStep.keeps`).  `Meets`
says what holds after a computation and what it can fail with.
-/

namespace QueryPipeline

/-! ### Success and failure without a state -/

namespace Except

variable {ε α β : Type} {x : Except ε α} {f : α → Except ε β}

theorem bind_ok (a : α) (f : α → Except ε β) : (Except.ok a >>= f) = f a := rfl

theorem bind_eq_ok {b : β} : (x >>= f) = .ok b ↔ ∃ a, x = .ok a ∧ f a = .ok b := by
  cases x with
  | ok a => simp [bind_ok]
  | error e =>
    constructor
    · intro h
      cases h
    · rintro ⟨_, h, _⟩
      cases h

theorem bind_eq_error {e : ε} : (x >>= f) = .error e ↔ x = .error e ∨ ∃ a, x = .ok a ∧ f a = .error e := by
  cases x with
  | ok a => simp [bind_ok]
  | error e' =>
    have hbind : (Except.error e' >>= f : Except ε β) = .error e' := rfl
    simp [hbind]

/-- A bind commutes with changes of what is passed on and of what comes out. -/
theorem map_bind {α' β' : Type} {φ : α → α'} {ψ : β → β'} {f' : α' → Except ε β'}
    (h : ∀ a, f' (φ a) = (f a).map ψ) : (x.map φ >>= f') = (x >>= f).map ψ := by
  cases x with
  | ok a => exact h a
  | error e => rfl

theorem map_congr_ok {φ ψ : α → β} (h : ∀ a, x = .ok a → φ a = ψ a) : x.map φ = x.map ψ := by
  cases x with
  | ok a => exact congrArg Except.ok (h a rfl)
  | error e => rfl

end Except

namespace Computation

variable {σ τ α β : Type}

/-! ### Success and failure with a state -/

theorem bind_apply (x : Computation σ α) (f : α → Computation σ β) (s : σ) :
    (x >>= f) s = match x s with
      | .ok (a, s') => f a s'
      | .error e => .error e := by
  show (x s >>= fun p => f p.1 p.2) = _
  cases x s <;> rfl

@[simp]
theorem pure_apply (a : α) (s : σ) : (pure a : Computation σ α) s = .ok (a, s) := rfl

@[simp]
theorem fail_apply (f : Fault) (s : σ) : (fail f : Computation σ α) s = .error (.error f) := rfl

@[simp]
theorem ofExcept_ok (a : α) : (ofExcept (.ok a) : Computation σ α) = pure a := rfl

@[simp]
theorem ofExcept_error (f : Fault) : (ofExcept (.error f) : Computation σ α) = fail f := rfl

@[simp]
theorem ofOption_some (f : Fault) (a : α) : (ofOption f (some a) : Computation σ α) = pure a := rfl

@[simp]
theorem ofOption_none (f : Fault) : (ofOption f none : Computation σ α) = fail f := rfl

theorem bind_eq_ok {x : Computation σ α} {f : α → Computation σ β} {s : σ} {r : β × σ} :
    (x >>= f) s = .ok r ↔ ∃ a s', x s = .ok (a, s') ∧ f a s' = .ok r := by
  rw [bind_apply]
  cases x s with
  | ok p => simp [Prod.ext_iff, and_assoc]
  | error e => simp

theorem bind_eq_error {x : Computation σ α} {f : α → Computation σ β} {s : σ} {e : Failure Fault} :
    (x >>= f) s = .error e ↔ x s = .error e ∨ ∃ a s', x s = .ok (a, s') ∧ f a s' = .error e := by
  rw [bind_apply]
  cases x s with
  | ok p => simp [Prod.ext_iff, and_assoc]
  | error e' => simp

theorem ofExcept_eq_ok {x : Except Fault α} {s : σ} {r : α × σ} :
    (ofExcept x : Computation σ α) s = .ok r ↔ x = .ok r.1 ∧ s = r.2 := by
  cases x with
  | ok a => simp [Prod.ext_iff]
  | error f => simp

theorem ofExcept_eq_error {x : Except Fault α} {s : σ} {e : Failure Fault} :
    (ofExcept x : Computation σ α) s = .error e ↔ ∃ f, x = .error f ∧ e = .error f := by
  cases x with
  | ok a => simp
  | error f => simp [eq_comm]

theorem ofOption_eq_ok {f : Fault} {o : Option α} {s : σ} {r : α × σ} :
    (ofOption f o : Computation σ α) s = .ok r ↔ o = some r.1 ∧ s = r.2 := by
  cases o with
  | some a => simp [Prod.ext_iff]
  | none => simp

theorem ofOption_eq_error {f : Fault} {o : Option α} {s : σ} {e : Failure Fault} :
    (ofOption f o : Computation σ α) s = .error e ↔ o = none ∧ e = .error f := by
  cases o with
  | some a => simp
  | none => simp [eq_comm]

/-! ### Going in step -/

/-- The same failure, or the same result with related states. -/
inductive Agree (R : σ → τ → Prop) :
    Except (Failure Fault) (α × σ) → Except (Failure Fault) (α × τ) → Prop
  | ok {a : α} {s : σ} {t : τ} (h : R s t) : Agree R (.ok (a, s)) (.ok (a, t))
  | error (e : Failure Fault) : Agree R (.error e) (.error e)

theorem agree_map {f : σ → τ} {x : Except (Failure Fault) (α × σ)} {y : Except (Failure Fault) (α × τ)} :
    Agree (fun s t => t = f s) x y ↔ y = x.map fun p => (p.1, f p.2) := by
  constructor
  · rintro (⟨rfl⟩ | e)
    · rfl
    · rfl
  · rintro rfl
    cases x with
    | ok p => exact .ok rfl
    | error e => exact .error e

/-- From related states the two computations end in agreement. -/
def InStep (R : σ → τ → Prop) (x : Computation σ α) (y : Computation τ α) : Prop :=
  ∀ s t, R s t → Agree R (x s) (y t)

namespace InStep

variable {R : σ → τ → Prop}

theorem pure (a : α) : InStep R (pure a) (pure a) := fun _ _ h => .ok h

theorem throw (e : Failure Fault) : InStep R (throw e : Computation σ α) (throw e) := fun _ _ _ => .error e

theorem fail (f : Fault) : InStep R (fail f : Computation σ α) (fail f) := throw (.error f)

theorem bind {x : Computation σ α} {y : Computation τ α} {f : α → Computation σ β} {g : α → Computation τ β}
    (h : InStep R x y) (hf : ∀ a, InStep R (f a) (g a)) : InStep R (x >>= f) (y >>= g) := by
  intro s t hst
  rw [bind_apply, bind_apply]
  have hxy := h s t hst
  generalize x s = r at hxy
  generalize y t = r' at hxy
  cases hxy with
  | ok h' => exact hf _ _ _ h'
  | error e => exact .error e

theorem ofExcept (x : Except Fault α) : InStep R (ofExcept x : Computation σ α) (Computation.ofExcept x) := by
  cases x with
  | ok a => exact pure a
  | error f => exact fail f

theorem ofOption (f : Fault) (o : Option α) :
    InStep R (ofOption f o : Computation σ α) (Computation.ofOption f o) := by
  cases o with
  | some a => exact pure a
  | none => exact fail f

theorem each {ε : Type} {f : ε → Computation σ Value} {g : ε → Computation τ Value} {es : List ε}
    (h : ∀ e ∈ es, InStep R (f e) (g e)) : InStep R (Eval.each f es) (Eval.each g es) := by
  induction es with
  | nil => exact pure []
  | cons e es ih =>
    refine bind (h e (by simp)) fun v => bind (ih fun e' he => h e' (by simp [he])) fun vs => ?_
    exact pure (v :: vs)

/-- What goes in step with itself along a predicate keeps the predicate. -/
theorem keeps {P : σ → Prop} {x : Computation σ α} (h : InStep (fun s t => s = t ∧ P s) x x) {s s' : σ} {a : α}
    (hs : P s) (hx : x s = .ok (a, s')) : P s' := by
  have hxx := h s s ⟨rfl, hs⟩
  rw [hx] at hxx
  cases hxx with
  | ok h' => exact h'.2

end InStep

/-! ### What a computation meets -/

/-- From a state with `P` the computation succeeds with `Q`, or it fails with `E`. -/
def Meets (P : σ → Prop) (x : Computation σ α) (Q : α → σ → Prop) (E : Failure Fault → Prop) : Prop :=
  ∀ s, P s → (∀ a s', x s = .ok (a, s') → Q a s') ∧ ∀ e, x s = .error e → E e

namespace Meets

variable {P : σ → Prop} {E : Failure Fault → Prop}

theorem pure {Q : α → σ → Prop} {a : α} (h : ∀ s, P s → Q a s) : Meets P (pure a) Q E := by
  intro s hs
  refine ⟨fun a' s' ha => ?_, fun e he => by cases he⟩
  obtain ⟨rfl, rfl⟩ := Prod.mk.inj (Except.ok.inj ha)
  exact h s hs

theorem fail {Q : α → σ → Prop} {f : Fault} (h : E (.error f)) : Meets P (fail f : Computation σ α) Q E := by
  intro s _
  refine ⟨fun a s' ha => (by cases ha), fun e he => ?_⟩
  obtain rfl := Except.error.inj he
  exact h

theorem bind {x : Computation σ α} {f : α → Computation σ β} {Q : α → σ → Prop} {R : β → σ → Prop}
    (hx : Meets P x Q E) (hf : ∀ a, Meets (Q a) (f a) R E) : Meets P (x >>= f) R E := by
  intro s hs
  refine ⟨fun b s' hb => ?_, fun e he => ?_⟩
  · obtain ⟨a, s₁, ha, hb⟩ := bind_eq_ok.1 hb
    exact (hf a s₁ ((hx s hs).1 a s₁ ha)).1 b s' hb
  · rcases bind_eq_error.1 he with he | ⟨a, s₁, ha, he⟩
    · exact (hx s hs).2 e he
    · exact (hf a s₁ ((hx s hs).1 a s₁ ha)).2 e he

theorem ofExcept {x : Except Fault α} (h : ∀ f, x = .error f → E (.error f)) :
    Meets P (ofExcept x : Computation σ α) (fun a s => P s ∧ x = .ok a) E := by
  cases x with
  | ok a => exact pure fun s hs => ⟨hs, rfl⟩
  | error f => exact fail (h f rfl)

theorem ofOption {f : Fault} {o : Option α} (h : o ≠ none) :
    Meets P (ofOption f o : Computation σ α) (fun a s => P s ∧ o = some a) E := by
  cases o with
  | some a => exact pure fun s hs => ⟨hs, rfl⟩
  | none => exact absurd rfl h

theorem mono {x : Computation σ α} {Q R : α → σ → Prop} (hx : Meets P x Q E) (h : ∀ a s, Q a s → R a s) :
    Meets P x R E :=
  fun s hs => ⟨fun a s' ha => h a s' ((hx s hs).1 a s' ha), (hx s hs).2⟩

theorem of_pre {P' : σ → Prop} {x : Computation σ α} {Q : α → σ → Prop} (hx : Meets P x Q E) (h : ∀ s, P' s → P s) :
    Meets P' x Q E :=
  fun s hs => hx s (h s hs)

/-- What is known of the state only once is assumed once. -/
theorem of_imp {x : Computation σ α} {Q : α → σ → Prop} {p : Prop} (h : p → Meets P x Q E) :
    Meets (fun s => P s ∧ p) x Q E :=
  fun s hs => h hs.2 s hs.1

end Meets

end Computation

end QueryPipeline
