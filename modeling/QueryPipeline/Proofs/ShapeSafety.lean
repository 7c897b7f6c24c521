import Mathlib
import QueryPipeline.Proofs.Stages

/-!
# Stages fit together

A stage of an accepted query never gets a value that is not of the shape it takes in, whatever the captures hold
(`Query.run_ne_shapeMismatch`).
-/

namespace QueryPipeline

open QueryPipeline.Computation (Meets)

private theorem Term.FailsWith.ne_shapeMismatch {g : Setting} {t : Term} {m : Memory} {e : Failure Fault}
    (h : FailsWith g t m e) (stage : Nat) : e ≠ .error (.shapeMismatch stage) := by
  rintro rfl
  rcases h with h | ⟨f, hf, hvalue⟩ | ⟨x, hx, -⟩
  · cases h
  · obtain rfl := Failure.error.inj hf
    exact hvalue
  · cases hx

private theorem Pool.evalWith_ne_shapeMismatch {p : Pool} {g : Setting} {i : NodeId} {t : Term}
    (ht : p.term? i = some t) (locals : Store) :
    Meets (fun _ => True) (p.evalWith g i locals) (fun _ _ => True)
      (fun e => ∀ stage, e ≠ .error (.shapeMismatch stage)) := by
  intro captures _
  refine ⟨fun _ _ _ => trivial, fun e he => ?_⟩
  exact (Term.eval_error ((Pool.evalWith_eq_error ht).1 he)).ne_shapeMismatch

/-- A run of an accepted query never comes to a stage with a value that does not match its input shape. -/
theorem Query.run_ne_shapeMismatch {q : Query} {names : SymbolTable} {policy : ScopePolicy} {p : Pipeline}
    (h : q.lower names policy = .ok p) (captures : Store) (stage : Nat) :
    p.runWith names captures ≠ .error (.error (.shapeMismatch stage)) := by
  obtain ⟨c, f, first, rest, hacc⟩ := lower_eq_ok h
  have hterm : ∀ before l rest, c.At before l rest → c.pool.term? l.expr = some l.term := by
    intro before l rest hat
    obtain ⟨cl, hof, -⟩ := hacc.rules.formed _ _ _ hat
    rw [hof.expr]
    exact hof.term
  have hsource := Pool.evalWith_ne_shapeMismatch (g := ⟨names, []⟩) (hterm [] first rest hacc.links) .empty
  have hsafe := hacc.meets (hsource.of_pre fun s (_ : s = captures) => trivial)
    (fun before l rest C locals hat _ _ _ => Pool.evalWith_ne_shapeMismatch (hterm before l rest hat) locals)
    (fun f hf stage heq => by rw [Failure.error.inj heq] at hf; exact hf)
  intro hrun
  exact hsafe.2 _ hrun stage rfl

/-- The integers of a row: `from x in [7, null] where x is int i select i`. -/
def Query.integers : Query where
  pool :=
    { nodes := #[⟨.literal (.int 7), ⟨0, 1⟩⟩, ⟨.literal .null, ⟨2, 3⟩⟩, ⟨.row .list ⟨0, 2⟩, ⟨4, 5⟩⟩,
        ⟨.ident ⟨1⟩, ⟨6, 7⟩⟩, ⟨.test (.hasType .int) ⟨3⟩ ⟨2⟩, ⟨8, 9⟩⟩, ⟨.ident ⟨2⟩, ⟨10, 11⟩⟩]
      lists := #[⟨0⟩, ⟨1⟩] }
  clauses :=
    [⟨.source, ⟨2⟩, .one ⟨1⟩, .object, ⟨0, 1⟩⟩, ⟨.filter, ⟨4⟩, .none, .bool, ⟨0, 1⟩⟩,
      ⟨.select, ⟨5⟩, .none, .int, ⟨0, 1⟩⟩]

/-- The spellings of its names. -/
def Query.integerNames : SymbolTable := ⟨#["", "x", "i"]⟩

theorem Query.integers_run_ne_shapeMismatch : ∃ p, Query.integers.lower Query.integerNames .unique = .ok p ∧
    p.runWith Query.integerNames .empty = .ok ([.int 7], .empty) ∧
    p.runWith Query.integerNames .empty ≠ .error (.error (.shapeMismatch 1)) := by
  obtain ⟨p, hp⟩ : ∃ p, Query.integers.lower Query.integerNames .unique = .ok p := ⟨_, rfl⟩
  have hrun : (Query.integers.lower Query.integerNames .unique).toOption.map
      (fun p => p.runWith Query.integerNames .empty) = some (.ok ([.int 7], .empty)) := by cbv
  rw [hp] at hrun
  exact ⟨p, hp, Option.some.inj hrun, Query.run_ne_shapeMismatch hp .empty 1⟩

end QueryPipeline
