import QueryPipeline.Proofs.Assigned
import QueryPipeline.Run.Pipeline

/-!
# Packing and unpacking

A carrier's value that is made of variables can be taken apart again, and gives the same variables
(`Carrier.unpack?_pack`).  An outcome is read as it was written, with one exception: a null that is written as a
success without a tag is read as a failure (`Encoding.read?_write`).
-/

namespace QueryPipeline

/-! ### Stores of many variables -/

namespace Store

variable {s : Store} {es : List (Symbol × Value)} {x : Symbol} {v : Value}

theorem contains_iff : s.contains x = true ↔ ∃ v, s.get? x = some v := by
  unfold contains
  rw [Option.isSome_iff_exists]

theorem contains_eq_false : s.contains x = false ↔ s.get? x = none := by
  simp [contains]

private theorem get?_insertAll_of_not_mem (h : ∀ e ∈ es, e.1 ≠ x) : (s.insertAll es).get? x = s.get? x := by
  unfold insertAll
  induction es generalizing s with
  | nil => rfl
  | cons e es ih =>
    rw [List.foldl_cons, ih fun e' he => h e' (List.mem_cons_of_mem _ he), get?_insert, if_neg (h e (by simp))]

private theorem get?_insertAll_of_mem (hnd : (es.map Prod.fst).Nodup) (h : (x, v) ∈ es) :
    (s.insertAll es).get? x = some v := by
  induction es generalizing s with
  | nil => cases h
  | cons e es ih =>
    rw [List.map_cons, List.nodup_cons] at hnd
    have hstep : s.insertAll (e :: es) = (s.insert e.1 e.2).insertAll es := rfl
    rcases List.mem_cons.1 h with rfl | h
    · -- the name does not come again
      have hfresh : ∀ e' ∈ es, e'.1 ≠ x := fun e' he heq => hnd.1 (List.mem_map.2 ⟨e', he, heq⟩)
      rw [hstep, get?_insertAll_of_not_mem hfresh, get?_insert, if_pos rfl]
    · rw [hstep]
      exact ih hnd.2 h

private theorem contains_insertAll :
    (s.insertAll es).contains x = true ↔ (∃ e ∈ es, e.1 = x) ∨ s.contains x = true := by
  unfold insertAll
  induction es generalizing s with
  | nil => simp
  | cons e es ih =>
    rw [List.foldl_cons, ih, contains_insert, Bool.or_eq_true, beq_iff_eq]
    simp only [List.mem_cons, exists_eq_or_imp, or_assoc]
    exact or_left_comm

end Store

/-! ### Carriers -/

namespace Carrier

variable {C : Carrier} {locals : Store} {v : Value} {x : Symbol}

/-- The variables that come with values of the fields. -/
def stored (C : Carrier) (vs : List Value) : Store := Store.empty.insertAll ((C.fields.map Field.name).zip vs)

theorem unpack?_pack {vs : List Value} (h : vs.length = C.fields.length) :
    C.unpack? (Value.pack vs) = some (C.stored vs) := by
  unfold unpack? stored
  match hf : C.fields, vs, h with
  | [], [], _ => rfl
  | [f], [v], _ => rfl
  | f :: f' :: fs, v :: v' :: vs, h =>
    simp only [List.length_cons] at h
    simp only [Value.pack, List.length_cons]
    rw [if_pos (by omega)]

/-- Taking a value apart gives exactly the variables of the fields. -/
theorem unpack?_contains (h : C.unpack? v = some locals) :
    locals.contains x = true ↔ ∃ f ∈ C.fields, f.name = x := by
  unfold unpack? at h
  split at h
  · rename_i hf
    obtain rfl := Option.some.inj h
    simp [hf, Store.contains, Store.empty, Store.get?, Store.find?]
  · rename_i f hf
    obtain rfl := Option.some.inj h
    rw [hf, Store.contains_insert]
    simp [Store.contains, Store.empty, Store.get?, Store.find?]
  · rename_i items _ _
    split at h
    · rename_i hlen
      obtain rfl := Option.some.inj h
      rw [Store.contains_insertAll]
      have hempty : Store.empty.contains x = false := rfl
      rw [hempty]
      constructor
      · rintro (⟨⟨y, w⟩, he, rfl⟩ | hfalse)
        · exact List.mem_map.1 (List.of_mem_zip he).1
        · cases hfalse
      · rintro ⟨f, hf, rfl⟩
        refine Or.inl ?_
        obtain ⟨i, hi, rfl⟩ := List.getElem_of_mem hf
        refine ⟨(C.fields[i].name, items[i]), ?_, rfl⟩
        rw [List.mem_iff_getElem]
        exact ⟨i, by simp; omega, by simp⟩
    · cases h
  · cases h

private theorem fieldValues_eq_ok {names : SymbolTable} {fields : List Field} {vs : List Value} :
    fieldValues names locals fields = .ok vs ↔ fields.map (fun f => locals.get? f.name) = vs.map some := by
  induction fields generalizing vs with
  | nil => cases vs <;> simp [fieldValues]
  | cons f fields ih =>
    rw [fieldValues, List.map_cons]
    cases hf : locals.get? f.name with
    | none => cases vs <;> simp
    | some v =>
      cases vs with
      | nil => cases hrest : fieldValues names locals fields <;> simp [Except.map]
      | cons w vs =>
        cases hrest : fieldValues names locals fields with
        | error e =>
          have hne : fields.map (fun f => locals.get? f.name) ≠ vs.map some := fun heq => by
            rw [ih.2 heq] at hrest
            cases hrest
          simp [Except.map, hne]
        | ok us =>
          have hus := ih.1 hrest
          rw [hus]
          simp only [Except.map, Except.ok.injEq, List.cons.injEq, List.map_cons, Option.some.injEq]
          refine and_congr_right fun _ => ⟨fun h => by rw [h], fun h => ?_⟩
          exact (List.map_inj_right fun _ _ => Option.some.inj).1 h

theorem pack_eq_ok {names : SymbolTable} : C.pack names locals = .ok v ↔
    ∃ vs, C.fields.map (fun f => locals.get? f.name) = vs.map some ∧ v = Value.pack vs := by
  unfold pack
  cases h : fieldValues names locals C.fields with
  | ok vs =>
    have hvs := fieldValues_eq_ok.1 h
    constructor
    · intro hv
      exact ⟨vs, hvs, (Except.ok.inj hv).symm⟩
    · rintro ⟨us, hus, rfl⟩
      rw [hvs] at hus
      rw [(List.map_inj_right fun _ _ => Option.some.inj).1 hus]
      rfl
  | error e =>
    constructor
    · intro hv
      cases hv
    · rintro ⟨us, hus, -⟩
      rw [fieldValues_eq_ok.2 hus] at h
      cases h

/-- A carrier can be made if all its variables have values. -/
theorem pack_isOk (names : SymbolTable) (h : ∀ f ∈ C.fields, locals.contains f.name = true) :
    ∃ v, C.pack names locals = .ok v := by
  refine ⟨_, pack_eq_ok.2 ⟨C.fields.map fun f => (locals.get? f.name).getD .null, ?_, rfl⟩⟩
  rw [List.map_map]
  refine List.map_congr_left fun f hf => ?_
  obtain ⟨v, hv⟩ := Store.contains_iff.1 (h f hf)
  simp [hv]

/-- What is made of variables can be taken apart. -/
theorem unpack?_of_pack {names : SymbolTable} (h : C.pack names locals = .ok v) : C.unpack? v ≠ none := by
  obtain ⟨vs, hvs, rfl⟩ := pack_eq_ok.1 h
  have hlen : vs.length = C.fields.length := by simpa using (congrArg List.length hvs).symm
  rw [unpack?_pack hlen]
  simp

/-- What is made of variables gives these variables back, if no two fields share a name. -/
theorem unpack?_get? {names : SymbolTable} (hnd : (C.fields.map Field.name).Nodup) (h : C.pack names locals = .ok v) :
    ∃ locals', C.unpack? v = some locals' ∧ ∀ f ∈ C.fields, locals'.get? f.name = locals.get? f.name := by
  obtain ⟨vs, hvs, rfl⟩ := pack_eq_ok.1 h
  have hlen : vs.length = C.fields.length := by simpa using (congrArg List.length hvs).symm
  refine ⟨C.stored vs, unpack?_pack hlen, fun f hf => ?_⟩
  obtain ⟨i, hi, rfl⟩ := List.getElem_of_mem hf
  have hvalue : locals.get? C.fields[i].name = some vs[i] := by
    have := congrArg (·[i]?) hvs
    simpa [hi, hlen] using this
  rw [hvalue]
  refine Store.get?_insertAll_of_mem ?_ ?_
  · rw [List.map_fst_zip (by simp [hlen])]
    exact hnd
  · rw [List.mem_iff_getElem]
    exact ⟨i, by simp [hlen, hi], by simp⟩

end Carrier

/-! ### Outcomes -/

/-- A success is read as a success, unless it is a null without a tag. -/
theorem Encoding.read?_write (e : Encoding) (v : Value) :
    e.read? (e.write (some v)) = some (if e = .elided ∧ v = .null then none else some v) := by
  cases e with
  | tagged => simp [Encoding.write, Encoding.read?]
  | elided => cases v <;> simp [Encoding.write, Encoding.read?]

theorem Encoding.read?_write_none (e : Encoding) : e.read? (e.write none) = some none := by
  cases e <;> rfl

end QueryPipeline
