import QueryPipeline.Proofs.Packing

/-!
# Outcomes and their encodings

A carrier's value holds the variables of its fields and no others, and an outcome hands its carrier back unless a
null is written without a tag.  Null is a carrier's value only if the carrier is one variable, and that is null
(`Carrier.pack_eq_null_iff`), so `Carrier.encoding` tags an outcome if some success would be lost without the
tag, and only then.
-/

namespace QueryPipeline

namespace Carrier

variable {C : Carrier} {names : SymbolTable} {locals : Store} {v : Value}

/-- Every field has a value. -/
def FilledBy (C : Carrier) (locals : Store) : Prop := ∀ f ∈ C.fields, locals.contains f.name = true

/-- Only fields whose types allow it are null. -/
def NullsFit (C : Carrier) (locals : Store) : Prop :=
  ∀ f ∈ C.fields, locals.get? f.name = some .null → f.ty.allowsNull = true

/-- There is one field, and it is null. -/
def LoneNull (C : Carrier) (locals : Store) : Prop := ∃ f, C.fields = [f] ∧ locals.get? f.name = some .null

/-- The second store is what the first has for the fields. -/
def Restricts (C : Carrier) (locals locals' : Store) : Prop :=
  ∀ x, locals'.get? x = if x ∈ C.fields.map Field.name then locals.get? x else none

private theorem unpack?_restricts (hnd : (C.fields.map Field.name).Nodup) (hv : C.pack names locals = .ok v) :
    ∃ locals', C.unpack? v = some locals' ∧ C.Restricts locals locals' := by
  obtain ⟨locals', hun, hget⟩ := unpack?_get? hnd hv
  refine ⟨locals', hun, fun x => ?_⟩
  by_cases hx : x ∈ C.fields.map Field.name
  · obtain ⟨f, hf, rfl⟩ := List.mem_map.1 hx
    rw [if_pos hx]
    exact hget f hf
  · rw [if_neg hx, ← Store.contains_eq_false, ← Bool.not_eq_true, unpack?_contains hun, ← List.mem_map]
    exact hx

/-- A unit and a tuple are not null, and a bare value is the variable's own. -/
theorem pack_eq_null_iff (hv : C.pack names locals = .ok v) : v = .null ↔ C.LoneNull locals := by
  obtain ⟨vs, hvs, rfl⟩ := pack_eq_ok.1 hv
  have hlen : C.fields.length = vs.length := by simpa using congrArg List.length hvs
  unfold LoneNull
  rcases hf : C.fields with _ | ⟨f, _ | ⟨f', fs⟩⟩
  · have hvs : vs = [] := List.length_eq_zero_iff.1 (by rw [← hlen, hf]; rfl)
    simp [hvs, Value.pack]
  · rw [hf] at hlen hvs
    obtain ⟨w, rfl⟩ := List.length_eq_one_iff.1 hlen.symm
    have hw : locals.get? f.name = some w := by simpa using hvs
    simp [Value.pack, hw]
  · rcases vs with _ | ⟨w, _ | ⟨w', ws⟩⟩
    · simp [hf] at hlen
    · simp [hf] at hlen
    · simp [Value.pack]

private theorem encoding_eq_tagged_iff : C.encoding = .tagged ↔ ∃ f, C.fields = [f] ∧ f.ty.allowsNull = true := by
  unfold encoding
  rcases C.fields with _ | ⟨f, _ | ⟨f', fs⟩⟩ <;> simp

/-- A lone null that fits its type is written with a tag. -/
theorem LoneNull.encoding_eq (h : C.LoneNull locals) (hfit : C.NullsFit locals) : C.encoding = .tagged := by
  obtain ⟨f, hf, hnull⟩ := h
  have hmem : f ∈ C.fields := by simp [hf]
  exact encoding_eq_tagged_iff.2 ⟨f, hf, hfit f hmem hnull⟩

/-- A carrier that is written with a tag can be a lone null. -/
theorem exists_loneNull (h : C.encoding = .tagged) :
    ∃ locals, C.FilledBy locals ∧ C.NullsFit locals ∧ C.LoneNull locals := by
  obtain ⟨f, hf, hnull⟩ := encoding_eq_tagged_iff.1 h
  have hget : (Store.empty.insert f.name .null).get? f.name = some .null := by
    rw [Store.get?_insert, if_pos rfl]
  refine ⟨Store.empty.insert f.name .null, fun f' hf' => ?_, fun f' hf' _ => ?_, f, hf, hget⟩
  · obtain rfl : f' = f := by simpa [hf] using hf'
    exact Store.contains_iff.2 ⟨_, hget⟩
  · obtain rfl : f' = f := by simpa [hf] using hf'
    exact hnull

end Carrier

namespace Shape

/-- An outcome that is read as a success is taken apart as its carrier is. -/
theorem unpack?_outcome {C : Carrier} {e : Encoding} {v w : Value} (h : e.read? w = some (some v)) :
    (outcome C e).unpack? w = C.unpack? v := by
  simp [unpack?, h]

/-- A mark of failure has no variables. -/
theorem unpack?_outcome_none {C : Carrier} {e : Encoding} {w : Value} (h : e.read? w = some none) :
    (outcome C e).unpack? w = none := by
  simp [unpack?, h]

end Shape

/-- Without a tag, exactly the lone nulls are read as failures. -/
theorem Carrier.read?_elided_iff {C : Carrier} {names : SymbolTable} {locals : Store} {v : Value}
    (hv : C.pack names locals = .ok v) :
    Encoding.elided.read? (Encoding.elided.write (some v)) = some none ↔ C.LoneNull locals := by
  rw [Encoding.read?_write, ← pack_eq_null_iff hv]
  by_cases hnull : v = .null <;> simp [hnull]

/-- A success is not lost, unless it is a lone null without a tag. -/
theorem Carrier.read?_write_pack {C : Carrier} {names : SymbolTable} {locals : Store} {v : Value} (e : Encoding)
    (hv : C.pack names locals = .ok v) (h : C.LoneNull locals → e = .tagged) :
    e.read? (e.write (some v)) = some (some v) := by
  rw [Encoding.read?_write, if_neg]
  rintro ⟨rfl, hnull⟩
  cases h ((pack_eq_null_iff hv).1 hnull)

/-- A carrier is taken apart into the variables that it was made of.  So is an outcome that was written with a tag,
and one without a tag unless it is a lone null, which is then read as a failure.  The carrier's own encoding loses
no success in which nulls fit their types, and uses a tag only if some such success needs it. -/
theorem Carrier.encoding_exact (C : Carrier) (names : SymbolTable) (locals : Store)
    (hnd : (C.fields.map Field.name).Nodup) (hfilled : C.FilledBy locals) :
    (∃ v locals', C.pack names locals = .ok v ∧ C.Restricts locals locals' ∧
      (Shape.carrier C).unpack? v = some locals' ∧
      (Shape.outcome C .tagged).unpack? (Encoding.tagged.write (some v)) = some locals' ∧
      (¬ C.LoneNull locals → (Shape.outcome C .elided).unpack? (Encoding.elided.write (some v)) = some locals') ∧
      (Encoding.elided.read? (Encoding.elided.write (some v)) = some none ↔ C.LoneNull locals) ∧
      (C.NullsFit locals → C.encoding.read? (C.encoding.write (some v)) = some (some v) ∧
        (Shape.outcome C C.encoding).unpack? (C.encoding.write (some v)) = some locals')) ∧
    (∀ e : Encoding, e.read? (e.write none) = some none ∧ (Shape.outcome C e).unpack? (e.write none) = none) ∧
    (C.encoding = .tagged ↔ ∃ lost v, C.FilledBy lost ∧ C.NullsFit lost ∧ C.pack names lost = .ok v ∧
      Encoding.elided.read? (Encoding.elided.write (some v)) = some none) := by
  obtain ⟨v, hv⟩ := pack_isOk names hfilled
  obtain ⟨locals', hun, hres⟩ := unpack?_restricts hnd hv
  have hread (e : Encoding) (he : C.LoneNull locals → e = .tagged) :
      (Shape.outcome C e).unpack? (e.write (some v)) = some locals' := by
    rw [Shape.unpack?_outcome (read?_write_pack e hv he), hun]
  refine ⟨⟨v, locals', hv, hres, hun, hread .tagged fun _ => rfl, ?_, read?_elided_iff hv, fun hfit => ?_⟩, ?_, ?_⟩
  · intro hlone
    exact hread .elided fun h => absurd h hlone
  · have he (h : C.LoneNull locals) : C.encoding = .tagged := h.encoding_eq hfit
    exact ⟨read?_write_pack _ hv he, hread _ he⟩
  · intro e
    have hnone := Encoding.read?_write_none e
    exact ⟨hnone, Shape.unpack?_outcome_none hnone⟩
  · constructor
    · intro htag
      obtain ⟨lost, hfilled', hfit, hlone⟩ := exists_loneNull htag
      obtain ⟨w, hw⟩ := pack_isOk names hfilled'
      exact ⟨lost, w, hfilled', hfit, hw, (read?_elided_iff hw).2 hlone⟩
    · rintro ⟨lost, w, -, hfit, hw, hnull⟩
      exact ((read?_elided_iff hw).1 hnull).encoding_eq hfit

/-- One variable of any type, which is null, and one that is not carried. -/
theorem Carrier.anything_encoding_exact : ∃ v locals',
    (⟨0, [⟨⟨0⟩, ⟨1⟩, .object⟩]⟩ : Carrier).pack ⟨#["", "x", "y"]⟩ (.ofList [(⟨2⟩, .int 4), (⟨1⟩, .null)]) = .ok v ∧
    locals'.get? ⟨1⟩ = some .null ∧ locals'.get? ⟨2⟩ = none ∧
    Encoding.elided.read? (Encoding.elided.write (some v)) = some none ∧
    (Shape.outcome ⟨0, [⟨⟨0⟩, ⟨1⟩, .object⟩]⟩ .tagged).unpack? (Encoding.tagged.write (some v)) = some locals' := by
  have hfilled : (⟨0, [⟨⟨0⟩, ⟨1⟩, .object⟩]⟩ : Carrier).FilledBy (.ofList [(⟨2⟩, .int 4), (⟨1⟩, .null)]) := by
    unfold FilledBy
    decide
  obtain ⟨⟨v, locals', hv, hres, -, htag, -, hlost, -⟩, -⟩ :=
    Carrier.encoding_exact ⟨0, [⟨⟨0⟩, ⟨1⟩, .object⟩]⟩ ⟨#["", "x", "y"]⟩ _ (by decide) hfilled
  exact ⟨v, locals', hv, hres ⟨1⟩, hres ⟨2⟩, hlost.2 ⟨_, rfl, rfl⟩, htag⟩

end QueryPipeline
