import QueryPipeline.Pipeline.Lowering
import QueryPipeline.Proofs.Packing

/-!
# Renamings

A renaming changes names so that no two of them become one, and leaves the blank name alone.  It acts on whatever
mentions names: expressions, queries, carriers, pipelines and stores.  Looking a variable up, giving it a value, and
packing variables into a carrier or taking them out of it commute with a renaming.
-/

namespace QueryPipeline

/-- A change of names.  A permutation of the names that leaves the blank one alone is a renaming. -/
structure Renaming where
  name : Symbol → Symbol
  injective : ∀ x y, name x = name y → x = y
  blank : name .blank = .blank

namespace Renaming

instance : CoeFun Renaming fun _ => Symbol → Symbol := ⟨name⟩

/-- The renaming that leaves all names alone. -/
def refl : Renaming := ⟨fun x => x, fun _ _ h => h, rfl⟩

@[simp]
theorem refl_name (x : Symbol) : refl x = x := rfl

theorem refl_eq_id : refl.name = id := rfl

variable (r : Renaming)

@[simp]
theorem name_inj {x y : Symbol} : r x = r y ↔ x = y := ⟨r.injective x y, fun h => h ▸ rfl⟩

@[simp]
theorem name_beq (x y : Symbol) : (r x == r y) = (x == y) := by
  rw [Bool.eq_iff_iff, beq_iff_eq, beq_iff_eq, name_inj]

@[simp]
theorem isPresent_name (x : Symbol) : (r x).isPresent = x.isPresent := by
  have hblank : ∀ y : Symbol, y.isPresent = false ↔ y = .blank := by
    rintro ⟨i⟩
    simp [Symbol.isPresent, Symbol.blank]
  rw [Bool.eq_iff_iff, ← Bool.not_eq_false, ← Bool.not_eq_false, hblank, hblank, ← r.blank, name_inj, r.blank]

@[simp]
theorem contains_map (xs : List Symbol) (x : Symbol) : (xs.map r).contains (r x) = xs.contains x := by
  induction xs with
  | nil => rfl
  | cons y xs _ => simp

end Renaming

/-! ### Expressions and queries -/

/-- The constant with its text renamed. -/
def Literal.rename (r : Renaming) : Literal → Literal
  | .str s => .str (r s)
  | l => l

/-- The form with its names renamed. -/
def Form.rename (r : Renaming) : Form → Form
  | .literal l => .literal (l.rename r)
  | .ident x => .ident (r x)
  | .test t e x => .test t e (r x)
  | .assign x e => .assign (r x) e
  | f => f

/-- The pool with its names renamed. -/
def Pool.rename (r : Renaming) (p : Pool) : Pool where
  nodes := p.nodes.map fun n => ⟨n.form.rename r, n.span⟩
  lists := p.lists

/-- The names that a clause introduces, renamed. -/
def Binder.rename (r : Renaming) : Binder → Binder
  | .none => .none
  | .one x => .one (r x)
  | .many xs => .many (xs.map r)

/-- The query with its names renamed. -/
def Query.rename (r : Renaming) (q : Query) : Query where
  pool := q.pool.rename r
  clauses := q.clauses.map fun c => { c with binder := c.binder.rename r }

/-- The binding under its new name. -/
def Binding.rename (r : Renaming) (b : Binding) : Binding := { b with name := r b.name }

/-! ### Pipelines -/

/-- The field under its new name. -/
def Field.rename (r : Renaming) (f : Field) : Field := { f with name := r f.name }

/-- The carrier with its names renamed. -/
def Carrier.rename (r : Renaming) (c : Carrier) : Carrier := { c with fields := c.fields.map (Field.rename r) }

/-- The shape with its names renamed. -/
def Shape.rename (r : Renaming) : Shape → Shape
  | .carrier c => .carrier (c.rename r)
  | .outcome c encoding => .outcome (c.rename r) encoding
  | .projection ty => .projection ty

/-- The pipeline with its names renamed. -/
def Pipeline.rename (r : Renaming) (p : Pipeline) : Pipeline where
  pool := p.pool.rename r
  source := p.source
  sourceCarrier := p.sourceCarrier.rename r
  stages := p.stages.map fun s => { s with input := s.input.rename r, output := s.output.rename r }

@[simp]
theorem Binding.rename_refl (b : Binding) : b.rename .refl = b := rfl

@[simp]
theorem Field.rename_refl (f : Field) : f.rename .refl = f := rfl

@[simp]
theorem Carrier.rename_refl (C : Carrier) : C.rename .refl = C := by
  have hfields : C.fields.map (Field.rename .refl) = C.fields := List.map_id C.fields
  rw [Carrier.rename, hfields]

@[simp]
theorem Shape.rename_refl (s : Shape) : s.rename .refl = s := by
  cases s <;> simp [Shape.rename]

@[simp]
theorem Shape.carrier?_rename (r : Renaming) (s : Shape) :
    (s.rename r).carrier? = s.carrier?.map (Carrier.rename r) := by
  cases s <;> rfl

namespace Carrier

variable (r : Renaming) (C : Carrier)

@[simp]
theorem encoding_rename : (C.rename r).encoding = C.encoding := by
  obtain ⟨id, fields⟩ := C
  rcases fields with _ | ⟨f, _ | ⟨g, fields⟩⟩ <;> rfl

@[simp]
theorem contains_rename (b : BindingId) : (C.rename r).contains b = C.contains b := by
  simp [rename, contains, Field.rename, Function.comp_def]

@[simp]
theorem find?_rename (b : BindingId) : (C.rename r).find? b = (C.find? b).map (Field.rename r) := by
  simp [rename, find?, Field.rename, List.find?_map, Function.comp_def]

end Carrier

/-! ### Stores -/

namespace Store

/-- The store with its variables renamed. -/
def rename (r : Renaming) (s : Store) : Store := ⟨s.entries.map fun e => (r e.1, e.2)⟩

variable (r : Renaming) (s : Store)

@[simp]
theorem rename_refl : s.rename .refl = s := by
  simp [rename]

@[simp]
theorem rename_empty : Store.empty.rename r = .empty := rfl

@[simp]
theorem get?_rename (x : Symbol) : (s.rename r).get? (r x) = s.get? x := by
  obtain ⟨entries⟩ := s
  simp only [get?, rename]
  induction entries with
  | nil => rfl
  | cons e rest ih => simp [find?, ih]

@[simp]
theorem contains_rename (x : Symbol) : (s.rename r).contains (r x) = s.contains x := by
  simp [contains]

theorem rename_insert (x : Symbol) (v : Value) : (s.insert x v).rename r = (s.rename r).insert (r x) v := by
  obtain ⟨entries⟩ := s
  simp only [insert, rename, mk.injEq]
  induction entries with
  | nil => rfl
  | cons e rest ih =>
    by_cases hx : e.1 = x
    · simp [put, hx]
    · simp [put, hx, ih]

private theorem rename_insertAll (es : List (Symbol × Value)) :
    (s.insertAll es).rename r = (s.rename r).insertAll (es.map fun e => (r e.1, e.2)) := by
  induction es generalizing s with
  | nil => rfl
  | cons e es ih =>
    have hstep := ih (s.insert e.1 e.2)
    rw [rename_insert] at hstep
    exact hstep

end Store

/-! ### Packing -/

/-- The spellings of the renamed names are those of the names themselves. -/
def SymbolTable.Spells (r : Renaming) (names names' : SymbolTable) : Prop :=
  ∀ x, names'.spelling (r x) = names.spelling x

theorem SymbolTable.Spells.refl (names : SymbolTable) : names.Spells .refl names := fun _ => rfl

variable {r : Renaming} {names names' : SymbolTable}

private theorem fieldValues_rename (h : names.Spells r names') (locals : Store) (fields : List Field) :
    fieldValues names' (locals.rename r) (fields.map (Field.rename r)) = fieldValues names locals fields := by
  induction fields with
  | nil => rfl
  | cons f fields ih =>
    have hname : (f.rename r).name = r f.name := rfl
    rw [List.map_cons, fieldValues, fieldValues, hname, Store.get?_rename, ih, h f.name]

namespace Carrier

variable {C : Carrier} {locals : Store}

theorem pack_rename (h : names.Spells r names') :
    (C.rename r).pack names' (locals.rename r) = C.pack names locals := by
  unfold pack
  rw [← fieldValues_rename h]
  rfl

theorem unpack?_rename (r : Renaming) (C : Carrier) (v : Value) :
    (C.rename r).unpack? v = (C.unpack? v).map (Store.rename r) := by
  obtain ⟨id, fields⟩ := C
  rcases fields with _ | ⟨f, _ | ⟨g, fields⟩⟩
  · rfl
  · rfl
  · cases v with
    | tuple items =>
      have hzip : ∀ names : List Symbol, (names.map r).zip items = (names.zip items).map fun e => (r e.1, e.2) := by
        intro names
        rw [List.zip_map_left]
        rfl
      have hnames : ((f :: g :: fields).map (Field.rename r)).map Field.name =
          ((f :: g :: fields).map Field.name).map r := by
        simp [Field.rename, Function.comp_def]
      by_cases hlen : items.length = (f :: g :: fields).length
      · have hrenamed : items.length = ((f :: g :: fields).map (Field.rename r)).length := by simpa using hlen
        have hsome : (Carrier.mk id (f :: g :: fields)).unpack? (.tuple items) =
            some (Store.empty.insertAll (((f :: g :: fields).map Field.name).zip items)) := if_pos hlen
        have hsome' : (Carrier.rename r ⟨id, f :: g :: fields⟩).unpack? (.tuple items) =
            some (Store.empty.insertAll ((((f :: g :: fields).map (Field.rename r)).map Field.name).zip items)) :=
          if_pos hrenamed
        rw [hsome, hsome', hnames, hzip, Option.map_some, Store.rename_insertAll, Store.rename_empty]
      · have hrenamed : items.length ≠ ((f :: g :: fields).map (Field.rename r)).length := by simpa using hlen
        have hnone : (Carrier.mk id (f :: g :: fields)).unpack? (.tuple items) = none := if_neg hlen
        have hnone' : (Carrier.rename r ⟨id, f :: g :: fields⟩).unpack? (.tuple items) = none := if_neg hrenamed
        rw [hnone, hnone', Option.map_none]
    | unit | bool | int | str | null | list => rfl

theorem addTo_rename (r : Renaming) (C : Carrier) (locals : Store) (id : BindingId) (v : Value) :
    (C.rename r).addTo (locals.rename r) id v = (C.addTo locals id v).rename r := by
  unfold addTo
  rw [find?_rename]
  cases C.find? id with
  | none => rfl
  | some f => exact (Store.rename_insert r locals f.name v).symm

theorem extract_rename (r : Renaming) (C : Carrier) (composite : Value) (locals : Store)
    (parts : List (BindingId × Nat)) :
    (C.rename r).extract composite (locals.rename r) parts =
      (C.extract composite locals parts).map (Store.rename r) := by
  induction parts generalizing locals with
  | nil => rfl
  | cons q parts ih =>
    rw [extract, extract]
    cases composite.part q.2 with
    | error f => rfl
    | ok v =>
      simp only [addTo_rename]
      exact ih _

theorem packEach_rename (h : names.Spells r names') (id : BindingId) (items : List Value) :
    (C.rename r).packEach names' (locals.rename r) id items = C.packEach names locals id items := by
  induction items with
  | nil => rfl
  | cons item items ih => rw [packEach, packEach, addTo_rename, pack_rename h, ih]

end Carrier

theorem Shape.unpack?_rename (r : Renaming) (s : Shape) (v : Value) :
    (s.rename r).unpack? v = (s.unpack? v).map (Store.rename r) := by
  cases s with
  | carrier C => exact Carrier.unpack?_rename r C v
  | outcome C encoding =>
    unfold Shape.unpack? Shape.rename
    simp only
    cases (encoding.read? v).join with
    | none => rfl
    | some u => exact Carrier.unpack?_rename r C u
  | projection ty => rfl

end QueryPipeline
