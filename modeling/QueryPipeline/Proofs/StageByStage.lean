import Mathlib
import QueryPipeline.Proofs.Grounded

/-!
# Running stage by stage

A run takes each element through all the stages before it takes the next.  A sequence library may as well apply one
stage to the whole list, and then the next stage to what comes out (`Pipeline.runByStages`): a mapping stage maps, a
filter filters, and a flattening stage maps and joins.

Where no expression assigns a variable, the captures stay as they are, and then the two ways succeed alike, with the
same values in the same order (`Pipeline.runWith_eq_runByStages`).  Which fault a failing run ends with depends on the
way.
-/

namespace QueryPipeline

/-! ### Computations that leave the state alone -/

namespace Computation

variable {σ α β : Type}

/-- If the computation succeeds, the state is as before. -/
def Quiet (x : Computation σ α) : Prop := ∀ s a s', x s = .ok (a, s') → s' = s

/-- What the computation gives from a state, if it succeeds. -/
def result? (x : Computation σ α) (s : σ) : Option α := (x s).toOption.map Prod.fst

namespace Quiet

theorem pure (a : α) : Quiet (pure a : Computation σ α) := by
  intro s a' s' h
  exact (congrArg Prod.snd (Except.ok.inj h)).symm

theorem throw (e : Failure Fault) : Quiet (throw e : Computation σ α) := by
  intro s a s' h
  cases h

theorem bind {x : Computation σ α} {f : α → Computation σ β} (hx : x.Quiet) (hf : ∀ a, (f a).Quiet) :
    (x >>= f).Quiet := by
  intro s b s' h
  obtain ⟨a, s₁, ha, hb⟩ := bind_eq_ok.1 h
  obtain rfl := hx s a s₁ ha
  exact hf a _ b s' hb

theorem ofExcept (x : Except Fault α) : Quiet (ofExcept x : Computation σ α) := by
  cases x with
  | ok a => exact pure a
  | error f => exact throw _

theorem ofOption (f : Fault) (o : Option α) : Quiet (ofOption f o : Computation σ α) := by
  cases o with
  | some a => exact pure a
  | none => exact throw _

private theorem eq_ok_iff {x : Computation σ α} (hx : x.Quiet) {s s' : σ} {a : α} :
    x s = .ok (a, s') ↔ x.result? s = some a ∧ s' = s := by
  unfold result?
  constructor
  · intro h
    rw [h]
    exact ⟨rfl, hx s a s' h⟩
  · rintro ⟨h, rfl⟩
    cases hxs : x s' with
    | error e =>
      rw [hxs] at h
      cases h
    | ok r =>
      obtain ⟨a', s⟩ := r
      rw [hxs] at h
      obtain rfl := Option.some.inj h
      rw [hx s' a' s hxs]

end Quiet

/-- What is quiet hands the same state on, so results come one after the other. -/
theorem result?_bind {x : Computation σ α} (hx : x.Quiet) (f : α → Computation σ β) (s : σ) :
    (x >>= f).result? s = (x.result? s).bind fun a => (f a).result? s := by
  unfold result?
  rw [bind_apply]
  cases hxs : x s with
  | error e => rfl
  | ok r =>
    obtain ⟨a, s'⟩ := r
    rw [hx s a s' hxs]
    rfl

end Computation

/-! ### Rows of values -/

namespace Run

variable {f : Value → Run (List Value)} {vs : List Value}

private theorem forEach_eq_flatMapM (f : Value → Run (List Value)) (vs : List Value) :
    forEach f vs = vs.flatMapM f := by
  induction vs with
  | nil => rw [forEach, List.flatMapM_nil]
  | cons v vs ih => rw [forEach, List.flatMapM_cons, ih]

private theorem forEach_quiet (hf : ∀ v, (f v).Quiet) : (forEach f vs).Quiet := by
  induction vs with
  | nil => exact .pure _
  | cons v vs ih => exact .bind (hf v) fun a => .bind ih fun b => .pure _

private theorem result?_forEach (hf : ∀ v, (f v).Quiet) (captures : Store) :
    (forEach f vs).result? captures = vs.flatMapM fun v => (f v).result? captures := by
  induction vs with
  | nil => rw [List.flatMapM_nil]; rfl
  | cons v vs ih =>
    rw [List.flatMapM_cons, forEach, Computation.result?_bind (hf v)]
    refine congrArg _ (funext fun a => ?_)
    rw [Computation.result?_bind (forEach_quiet hf), ih]
    rfl

private theorem flatMapM_append (h : Value → Option (List Value)) (xs ys : List Value) :
    (xs ++ ys).flatMapM h = (xs.flatMapM h).bind fun a => (ys.flatMapM h).bind fun b => some (a ++ b) := by
  induction xs with
  | nil => simp
  | cons x xs ih => simp [List.flatMapM_cons, ih, Option.bind_assoc]

/-- Going through what each value gives is the same as going through all that the values give. -/
theorem flatMapM_bind (g h : Value → Option (List Value)) (vs : List Value) :
    vs.flatMapM (fun v => (g v).bind fun ws => ws.flatMapM h) = (vs.flatMapM g).bind fun ws => ws.flatMapM h := by
  induction vs with
  | nil => simp
  | cons v vs ih =>
    rw [List.flatMapM_cons, List.flatMapM_cons, ih]
    -- the rest of the values come before or after what the first one gives, but nothing depends on it
    cases g v with
    | none => rfl
    | some xs =>
      cases vs.flatMapM g with
      | none => cases hxs : xs.flatMapM h <;> simp [hxs]
      | some ys => simp [flatMapM_append]

private theorem forEach_eq_mapM (f : Value → Run Value) (vs : List Value) :
    forEach (fun v => f v >>= fun w => pure [w]) vs = vs.mapM f := by
  induction vs with
  | nil => rw [forEach, List.mapM_nil]
  | cons v vs ih =>
    rw [forEach, List.mapM_cons, ih]
    simp only [bind_assoc, pure_bind, List.singleton_append]

private theorem filterAuxM_eq (f : Value → Run Bool) (vs acc : List Value) :
    List.filterAuxM f vs acc =
      forEach (fun v => f v >>= fun b => pure (if b then [v] else [])) vs >>= fun ws => pure (ws.reverse ++ acc) := by
  induction vs generalizing acc with
  | nil => rfl
  | cons v vs ih =>
    rw [List.filterAuxM, forEach]
    simp only [bind_assoc, pure_bind, ih]
    refine congrArg _ (funext fun b => ?_)
    cases b <;> simp

private theorem forEach_eq_filterM (f : Value → Run Bool) (vs : List Value) :
    forEach (fun v => f v >>= fun b => pure (if b then [v] else [])) vs = vs.filterM f := by
  rw [List.filterM, filterAuxM_eq]
  simp only [bind_assoc, pure_bind, List.append_nil, List.reverse_reverse, bind_pure]

end Run

/-! ### One stage for all values -/

namespace Stage

variable {p : Pool} {names : SymbolTable} {index : Nat} {s : Stage NodeId}

/-- Does something with the names that the tests of the stage bind. -/
def under {α : Type} (p : Pool) (names : SymbolTable) (s : Stage NodeId) (k : Setting → Run α) : Run α :=
  match s.body.declared? p with
  | some declared => k ⟨names, declared⟩
  | none => throw .dangling

/-- The value that a mapping stage gives for a value. -/
def image (p : Pool) (g : Setting) (index : Nat) (s : Stage NodeId) (v : Value) : Run Value :=
  match s.body with
  | .unwrap =>
    match s.input with
    | .outcome _ encoding => Computation.ofOption (.shapeMismatch index) (encoding.read? v).join
    | _ => Computation.fail (.shapeMismatch index)
  | .guard e =>
    match s.output with
    | .outcome c encoding => do
      let locals ← s.locals index v
      let (b, locals) ← p.holdsWith g e locals
      if b then
        return encoding.write (some (← Computation.ofExcept (c.pack g.names locals)))
      else
        return encoding.write none
    | _ => Computation.fail (.shapeMismatch index)
  | .extend bindings => do
    let c ← s.target index
    let locals ← s.locals index v
    let locals ← c.extend p g locals bindings
    Computation.ofExcept (c.pack g.names locals)
  | .destructure e parts => do
    let c ← s.target index
    let locals ← s.locals index v
    let (composite, locals) ← p.evalWith g e locals
    let locals ← Computation.ofExcept (c.extract composite locals parts)
    Computation.ofExcept (c.pack g.names locals)
  | .project e => do
    let locals ← s.locals index v
    return (← p.evalWith g e locals).1
  | _ => Computation.fail (.shapeMismatch index)

/-- Whether a filter keeps a value. -/
def keeps (p : Pool) (g : Setting) (index : Nat) (s : Stage NodeId) (v : Value) : Run Bool :=
  match s.body with
  | .predicate e => do
    let locals ← s.locals index v
    return (← p.holdsWith g e locals).1
  | .rejectAbsent =>
    match s.input with
    | .outcome _ encoding => do
      return (← Computation.ofOption (.shapeMismatch index) (encoding.read? v)).isSome
    | _ => Computation.fail (.shapeMismatch index)
  | _ => Computation.fail (.shapeMismatch index)

/-- The values that a flattening stage gives for a value. -/
def members (p : Pool) (g : Setting) (index : Nat) (s : Stage NodeId) (v : Value) : Run (List Value) :=
  match s.body with
  | .generate e id => do
    let c ← s.target index
    let locals ← s.locals index v
    let (collection, locals) ← p.evalWith g e locals
    let items ← Computation.ofExcept collection.elements
    Computation.ofExcept (c.packEach g.names locals id items)
  | _ => Computation.fail (.shapeMismatch index)

/-- What the stage at place `index` makes of a whole list. -/
def onAll (p : Pool) (names : SymbolTable) (index : Nat) (s : Stage NodeId) (vs : List Value) : Run (List Value) :=
  match s.kind with
  | .map => vs.mapM fun v => s.under p names fun g => s.image p g index v
  | .filter => vs.filterM fun v => s.under p names fun g => s.keeps p g index v
  | .flatMap => vs.flatMapM fun v => s.under p names fun g => s.members p g index v

private theorem stepWith_of_map (hk : s.kind = .map) (g : Setting) (v : Value) :
    s.stepWith p g index v = s.image p g index v >>= fun w => pure [w] := by
  unfold stepWith image
  rw [hk]
  cases s.body with
  | extend | destructure | project => simp only [bind_assoc, pure_bind]
  | guard e =>
    simp only
    cases s.output with
    | outcome c encoding =>
      simp only [bind_assoc]
      refine congrArg _ (funext fun locals => congrArg _ (funext fun r => ?_))
      split <;> simp only [bind_assoc, pure_bind]
    | carrier | projection => rfl
  | unwrap => cases s.input <;> rfl
  | generate | predicate | rejectAbsent => rfl

private theorem stepWith_of_filter (hk : s.kind = .filter) (g : Setting) (v : Value) :
    s.stepWith p g index v = s.keeps p g index v >>= fun b => pure (if b then [v] else []) := by
  unfold stepWith keeps
  rw [hk]
  cases s.body with
  | predicate e => simp only [bind_assoc, pure_bind]
  | rejectAbsent => cases s.input <;> simp only [bind_assoc, pure_bind] <;> rfl
  | extend | destructure | generate | guard | unwrap | project => rfl

private theorem stepWith_of_flatMap (hk : s.kind = .flatMap) (g : Setting) (v : Value) :
    s.stepWith p g index v = s.members p g index v := by
  unfold stepWith members
  rw [hk]
  cases s.body <;> rfl

private theorem step_eq_under (v : Value) :
    s.step p names index v = s.under p names fun g => s.stepWith p g index v := rfl

private theorem under_bind {α β : Type} (k : Setting → Run α) (f : α → Run β) :
    (s.under p names k >>= f) = s.under p names fun g => k g >>= f := by
  unfold under
  cases s.body.declared? p <;> rfl

/-- A stage does to a whole list what it does to its members. -/
theorem onAll_eq (p : Pool) (names : SymbolTable) (index : Nat) (s : Stage NodeId) (vs : List Value) :
    s.onAll p names index vs = Run.forEach (s.step p names index) vs := by
  unfold onAll
  cases hk : s.kind with
  | map =>
    simp only [← Run.forEach_eq_mapM, under_bind]
    refine congrArg (Run.forEach · vs) (funext fun v => ?_)
    simp only [step_eq_under, stepWith_of_map hk]
  | filter =>
    simp only [← Run.forEach_eq_filterM, under_bind]
    refine congrArg (Run.forEach · vs) (funext fun v => ?_)
    simp only [step_eq_under, stepWith_of_filter hk]
  | flatMap =>
    simp only [← Run.forEach_eq_flatMapM]
    refine congrArg (Run.forEach · vs) (funext fun v => ?_)
    simp only [step_eq_under, stepWith_of_flatMap hk]

end Stage

/-- What the stages from place `index` on make of a list, one stage after the other. -/
def Run.stageByStage (p : Pool) (names : SymbolTable) :
    (index : Nat) → List (Stage NodeId) → List Value → Run (List Value)
  | _, [], vs => return vs
  | index, s :: rest, vs => do
    let ws ← s.onAll p names index vs
    Run.stageByStage p names (index + 1) rest ws

/-- The results of the pipeline and the captures after it, if each stage is applied to a whole list. -/
def Pipeline.runByStages (p : Pipeline) (names : SymbolTable) (captures : Store) :
    Except (Failure Fault) (List Value × Store) :=
  (do
    let items ← p.elements names
    Run.stageByStage p.pool names 0 p.stages items : Run (List Value)).run captures

/-! ### Expressions without assignments -/

namespace Pool

/-- The expression at `i` has the node `j` in it. -/
inductive Contains (p : Pool) : NodeId → NodeId → Prop
  | self (i : NodeId) : Contains p i i
  | operand {i j k : NodeId} {is : List NodeId} (h : p.operands? i = some is) (hk : k ∈ is) (hj : Contains p k j) :
    Contains p i j

/-- No node of the expression is an assignment. -/
def AssignFree (p : Pool) (i : NodeId) : Prop :=
  ∀ j n, p.Contains i j → p.get? j = some n → ∀ x e, n.form ≠ .assign x e

theorem AssignFree.operand {p : Pool} {i k : NodeId} {is : List NodeId} (h : p.AssignFree i)
    (his : p.operands? i = some is) (hk : k ∈ is) : p.AssignFree k :=
  fun j n hj => h j n (.operand his hk hj)

private theorem assign_of_mention {p : Pool} {depth : Nat} {i : NodeId} {x : Symbol}
    (h : (p.unfoldTo depth i).mention? = some (x, true)) : ∃ n e, p.get? i = some n ∧ n.form = .assign x e := by
  cases depth with
  | zero => cases h
  | succ depth =>
    rw [unfoldTo] at h
    cases hn : p.get? i with
    | none =>
      rw [hn] at h
      cases h
    | some n =>
      rw [hn] at h
      cases hf : n.form with
      | assign y e =>
        obtain rfl : y = x := by simpa [hf, Term.mention?] using h
        exact ⟨n, e, rfl, hf⟩
      | row kind s => cases hs : p.slice? s <;> simp [hf, hs, Term.mention?] at h
      | _ => simp [hf, Term.mention?] at h

/-- The term of such an expression has no assignment either, however deep it is unfolded. -/
theorem AssignFree.unfoldTo {p : Pool} {i : NodeId} (h : p.AssignFree i) (depth : Nat) :
    ∀ u ∈ (p.unfoldTo depth i).preorder, ∀ x, u.mention? ≠ some (x, true) := by
  induction depth generalizing i with
  | zero =>
    intro u hu x hx
    rcases Term.mem_preorder_iff.1 hu with rfl | ⟨e, he, -⟩
    · cases hx
    · cases he
  | succ depth ih =>
    intro u hu x hx
    rcases Term.mem_preorder_iff.1 hu with rfl | ⟨e, he, hu⟩
    · obtain ⟨n, e, hn, hf⟩ := assign_of_mention hx
      exact h i n (.self i) hn x e hf
    · rw [operands_unfoldTo] at he
      obtain ⟨k, hk, rfl⟩ := List.mem_map.1 he
      cases his : p.operands? i with
      | none =>
        rw [his] at hk
        cases hk
      | some is =>
        rw [his] at hk
        exact ih (h.operand his hk) u hu x hx

/-- Without assignments an expression leaves the captures alone: its tests bind variables of the stage only. -/
theorem AssignFree.evalWith_quiet {p : Pool} {i : NodeId} (h : p.AssignFree i) (g : Setting) (locals : Store) :
    (p.evalWith g i locals).Quiet := by
  intro captures r captures' hr
  unfold evalWith eval at hr
  rw [evalTo_eq] at hr
  cases heval : (p.unfoldTo p.reach i).eval g ⟨locals, captures⟩ with
  | error e =>
    rw [heval] at hr
    cases hr
  | ok vm =>
    obtain ⟨v, m⟩ := vm
    rw [heval] at hr
    obtain rfl : m.captures = captures' := congrArg Prod.snd (Except.ok.inj hr)
    refine Term.eval_keeps (P := fun m => m.captures = captures) ?_ ?_ rfl heval
    · intro u hu x hx
      exact absurd hx (h.unfoldTo p.reach u hu x)
    · intro o q e x _ w m _ hm
      exact hm

private theorem AssignFree.holdsWith_quiet {p : Pool} {i : NodeId} (h : p.AssignFree i) (g : Setting) (locals : Store) :
    (p.holdsWith g i locals).Quiet :=
  .bind (h.evalWith_quiet g locals) fun _ => .bind (.ofExcept _) fun _ => .pure _

end Pool

private theorem Carrier.extend_quiet {C : Carrier} {p : Pool} {bindings : List (BindingId × NodeId)}
    (h : ∀ b ∈ bindings, p.AssignFree b.2) (g : Setting) (locals : Store) : (C.extend p g locals bindings).Quiet := by
  induction bindings generalizing locals with
  | nil => exact .pure _
  | cons b bindings ih =>
    obtain ⟨id, e⟩ := b
    refine .bind ((h (id, e) (by simp)).evalWith_quiet g locals) fun r => ?_
    exact ih (fun b hb => h b (List.mem_cons_of_mem _ hb)) _

namespace Stage

variable {p : Pool} {s : Stage NodeId}

private theorem image_quiet (h : ∀ e ∈ s.body.exprs, p.AssignFree e) (g : Setting) (index : Nat) (v : Value) :
    (s.image p g index v).Quiet := by
  unfold image
  cases hb : s.body with
  | unwrap =>
    cases s.input with
    | outcome => exact .ofOption _ _
    | carrier | projection => exact .throw _
  | guard e =>
    have he : p.AssignFree e := h e (by simp [hb, Body.exprs])
    cases s.output with
    | outcome C encoding =>
      refine .bind (.ofOption _ _) fun locals => .bind (he.holdsWith_quiet g locals) fun r => ?_
      cases hr : r.1 with
      | true =>
        simp only [hr]
        exact .bind (.ofExcept _) fun _ => .pure _
      | false =>
        simp only [hr]
        exact .pure _
    | carrier | projection => exact .throw _
  | extend bindings =>
    have hbindings : ∀ b ∈ bindings, p.AssignFree b.2 :=
      fun b hmem => h b.2 (by simpa [hb, Body.exprs] using ⟨b.1, hmem⟩)
    refine .bind (.ofOption _ _) fun C => .bind (.ofOption _ _) fun locals => ?_
    exact .bind (Carrier.extend_quiet hbindings g locals) fun _ => .ofExcept _
  | destructure e parts =>
    have he : p.AssignFree e := h e (by simp [hb, Body.exprs])
    refine .bind (.ofOption _ _) fun C => .bind (.ofOption _ _) fun locals => ?_
    exact .bind (he.evalWith_quiet g locals) fun _ => .bind (.ofExcept _) fun _ => .ofExcept _
  | project e =>
    have he : p.AssignFree e := h e (by simp [hb, Body.exprs])
    exact .bind (.ofOption _ _) fun locals => .bind (he.evalWith_quiet g locals) fun _ => .pure _
  | generate | predicate | rejectAbsent => exact .throw _

private theorem keeps_quiet (h : ∀ e ∈ s.body.exprs, p.AssignFree e) (g : Setting) (index : Nat) (v : Value) :
    (s.keeps p g index v).Quiet := by
  unfold keeps
  cases hb : s.body with
  | predicate e =>
    have he : p.AssignFree e := h e (by simp [hb, Body.exprs])
    exact .bind (.ofOption _ _) fun locals => .bind (he.holdsWith_quiet g locals) fun _ => .pure _
  | rejectAbsent =>
    cases s.input with
    | outcome => exact .bind (.ofOption _ _) fun _ => .pure _
    | carrier | projection => exact .throw _
  | extend | destructure | generate | guard | unwrap | project => exact .throw _

private theorem members_quiet (h : ∀ e ∈ s.body.exprs, p.AssignFree e) (g : Setting) (index : Nat) (v : Value) :
    (s.members p g index v).Quiet := by
  unfold members
  cases hb : s.body with
  | generate e id =>
    have he : p.AssignFree e := h e (by simp [hb, Body.exprs])
    refine .bind (.ofOption _ _) fun C => .bind (.ofOption _ _) fun locals => ?_
    exact .bind (he.evalWith_quiet g locals) fun _ => .bind (.ofExcept _) fun _ => .ofExcept _
  | extend | destructure | predicate | guard | rejectAbsent | unwrap | project => exact .throw _

/-- A stage whose expressions do not assign leaves the captures alone. -/
theorem step_quiet (h : ∀ e ∈ s.body.exprs, p.AssignFree e) (names : SymbolTable) (index : Nat) (v : Value) :
    (s.step p names index v).Quiet := by
  unfold step
  cases s.body.declared? p with
  | none => exact .throw _
  | some declared =>
    cases hk : s.kind with
    | map =>
      simp only [stepWith_of_map hk]
      exact .bind (image_quiet h _ index v) fun _ => .pure _
    | filter =>
      simp only [stepWith_of_filter hk]
      exact .bind (keeps_quiet h _ index v) fun _ => .pure _
    | flatMap =>
      simp only [stepWith_of_flatMap hk]
      exact members_quiet h _ index v

end Stage

/-! ### The two ways -/

namespace Run

variable {p : Pool} {names : SymbolTable} {stages : List (Stage NodeId)}

private theorem through_quiet (h : ∀ s ∈ stages, ∀ e ∈ s.body.exprs, p.AssignFree e) (index : Nat) (v : Value) :
    (through p names index stages v).Quiet := by
  induction stages generalizing index v with
  | nil => exact .pure _
  | cons s rest ih =>
    refine .bind (Stage.step_quiet (h s (by simp)) names index v) fun ws => ?_
    exact forEach_quiet fun w => ih (fun s' hs' => h s' (List.mem_cons_of_mem _ hs')) (index + 1) w

private theorem stageByStage_quiet (h : ∀ s ∈ stages, ∀ e ∈ s.body.exprs, p.AssignFree e) (index : Nat)
    (vs : List Value) : (stageByStage p names index stages vs).Quiet := by
  induction stages generalizing index vs with
  | nil => exact .pure _
  | cons s rest ih =>
    refine .bind ?_ fun ws => ih (fun s' hs' => h s' (List.mem_cons_of_mem _ hs')) (index + 1) ws
    rw [Stage.onAll_eq]
    exact forEach_quiet (Stage.step_quiet (h s (by simp)) names index)

/-- Both ways through the stages give the same values. -/
theorem result?_stageByStage (h : ∀ s ∈ stages, ∀ e ∈ s.body.exprs, p.AssignFree e) (index : Nat) (vs : List Value)
    (captures : Store) :
    (stageByStage p names index stages vs).result? captures =
      (forEach (through p names index stages) vs).result? captures := by
  rw [result?_forEach (through_quiet h index)]
  induction stages generalizing index vs with
  | nil =>
    induction vs with
    | nil => rfl
    | cons v vs ih =>
      rw [List.flatMapM_cons, ← ih]
      rfl
  | cons s rest ih =>
    have hs := Stage.step_quiet (h s (by simp)) names index
    have hrest := fun s' hs' => h s' (List.mem_cons_of_mem s hs')
    have hthrough : ∀ v, (through p names index (s :: rest) v).result? captures =
        ((s.step p names index v).result? captures).bind fun ws =>
          ws.flatMapM fun w => (through p names (index + 1) rest w).result? captures := by
      intro v
      rw [through, Computation.result?_bind (hs v)]
      refine congrArg _ (funext fun ws => ?_)
      rw [result?_forEach (through_quiet hrest (index + 1))]
    calc (stageByStage p names index (s :: rest) vs).result? captures
        = ((forEach (s.step p names index) vs).result? captures).bind fun ws =>
            (stageByStage p names (index + 1) rest ws).result? captures := by
          rw [stageByStage, Stage.onAll_eq, Computation.result?_bind (forEach_quiet hs)]
      _ = (vs.flatMapM fun v => (s.step p names index v).result? captures).bind fun ws =>
            ws.flatMapM fun w => (through p names (index + 1) rest w).result? captures := by
          rw [result?_forEach hs]
          exact congrArg _ (funext fun ws => ih hrest (index + 1) ws)
      _ = vs.flatMapM fun v => (through p names index (s :: rest) v).result? captures := by
          simp only [hthrough, flatMapM_bind]

end Run

namespace Pipeline

/-- No expression of the pipeline assigns a variable. -/
def AssignFree (p : Pipeline) : Prop :=
  p.pool.AssignFree p.source ∧ ∀ s ∈ p.stages, ∀ e ∈ s.body.exprs, p.pool.AssignFree e

/-- Without assignments, a run element by element and one stage by stage succeed alike.  They give the same values in
the same order and leave the captures as they are. -/
theorem runWith_eq_runByStages {p : Pipeline} (h : p.AssignFree) (names : SymbolTable) (captures : Store) :
    (∀ out captures', p.runWith names captures = .ok (out, captures') ↔
      p.runByStages names captures = .ok (out, captures')) ∧
    (∀ out captures', p.runWith names captures = .ok (out, captures') → captures' = captures) ∧
    ((∃ e, p.runWith names captures = .error e) ↔ ∃ e, p.runByStages names captures = .error e) := by
  have hsource : (p.elements names).Quiet :=
    .bind (h.1.evalWith_quiet _ _) fun _ => .ofExcept _
  have hrun : (p.elements names >>= fun items => Run.forEach (Run.through p.pool names 0 p.stages) items).Quiet :=
    .bind hsource fun items => Run.forEach_quiet (Run.through_quiet h.2 0)
  have hstages : (p.elements names >>= fun items => Run.stageByStage p.pool names 0 p.stages items).Quiet :=
    .bind hsource fun items => Run.stageByStage_quiet h.2 0 items
  have hsame : ∀ out captures', p.runWith names captures = .ok (out, captures') ↔
      p.runByStages names captures = .ok (out, captures') := by
    intro out captures'
    refine hrun.eq_ok_iff.trans (Iff.trans ?_ hstages.eq_ok_iff.symm)
    rw [Computation.result?_bind hsource, Computation.result?_bind hsource]
    simp only [Run.result?_stageByStage h.2]
  refine ⟨hsame, fun out captures' hr => hrun captures out captures' hr, ?_⟩
  cases hr : p.runWith names captures with
  | ok r => simp [(hsame r.1 r.2).1 hr]
  | error e =>
    cases hs : p.runByStages names captures with
    | error e' => simp
    | ok r =>
      rw [(hsame r.1 r.2).2 hs] at hr
      cases hr

/-- The pipeline of `from x in [1, 2] from y in [x, x + 1] where y > 1 select y`. -/
def successors : Pipeline where
  pool :=
    { nodes := #[⟨.literal (.int 1), ⟨0, 1⟩⟩, ⟨.literal (.int 2), ⟨2, 3⟩⟩, ⟨.row .list ⟨0, 2⟩, ⟨4, 5⟩⟩,
        ⟨.ident ⟨1⟩, ⟨6, 7⟩⟩, ⟨.operator .add ⟨3⟩ ⟨0⟩, ⟨8, 9⟩⟩, ⟨.row .list ⟨2, 2⟩, ⟨10, 11⟩⟩, ⟨.ident ⟨2⟩, ⟨12, 13⟩⟩,
        ⟨.operator .gt ⟨6⟩ ⟨0⟩, ⟨14, 15⟩⟩]
      lists := #[⟨0⟩, ⟨1⟩, ⟨3⟩, ⟨4⟩] }
  source := ⟨2⟩
  sourceCarrier := ⟨0, [⟨⟨0⟩, ⟨1⟩, .int⟩]⟩
  stages :=
    let input := Shape.carrier ⟨0, [⟨⟨0⟩, ⟨1⟩, .int⟩]⟩
    let pair := Shape.carrier ⟨1, [⟨⟨1⟩, ⟨2⟩, .int⟩]⟩
    [⟨.flatMap, input, pair, .generate ⟨5⟩ ⟨1⟩, 1⟩, ⟨.filter, pair, pair, .predicate ⟨7⟩, 2⟩,
      ⟨.map, pair, .projection .int, .project ⟨6⟩, 3⟩]

theorem successors_runByStages : successors.AssignFree ∧
    successors.runByStages ⟨#["", "x", "y"]⟩ (.ofList [(⟨1⟩, .null)]) =
      .ok ([.int 2, .int 2, .int 3], .ofList [(⟨1⟩, .null)]) := by
  have hfree : successors.AssignFree := by
    have hnodes : ∀ n ∈ successors.pool.nodes.toList, ∀ x e, n.form ≠ .assign x e := by
      simp [successors]
    have hpool : ∀ i, successors.pool.AssignFree i :=
      fun i j n _ hn => hnodes n (Array.mem_toList_iff.2 (Array.mem_of_getElem? hn))
    exact ⟨hpool _, fun s _ e _ => hpool e⟩
  have hrun : successors.runWith ⟨#["", "x", "y"]⟩ (.ofList [(⟨1⟩, .null)]) =
      .ok ([.int 2, .int 2, .int 3], .ofList [(⟨1⟩, .null)]) := by cbv
  exact ⟨hfree, ((runWith_eq_runByStages hfree _ _).1 _ _).1 hrun⟩

end Pipeline

end QueryPipeline
