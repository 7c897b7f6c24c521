import QueryPipeline.Pipeline.Basic
import QueryPipeline.Run.Packing
import QueryPipeline.Run.Pool

/-!
# What a stage does

A stage takes its variables out of the value that comes in, evaluates its expression with them, and packs the
variables of the next carrier.  It gives out one value, none, or several.
-/

namespace QueryPipeline

/-- A computation that reads and changes the captures. -/
abbrev Run := Computation Store

/-- Evaluates an expression with some variables, and returns the variables after it as well. -/
def Pool.evalWith (p : Pool) (g : Setting) (i : NodeId) (locals : Store) : Run (Value × Store) :=
  fun captures => do
    let (v, m) ← p.eval g i ⟨locals, captures⟩
    return ((v, m.locals), m.captures)

/-- Evaluates a condition with some variables, and returns the variables after it as well. -/
def Pool.holdsWith (p : Pool) (g : Setting) (i : NodeId) (locals : Store) : Run (Bool × Store) := do
  let (v, locals) ← p.evalWith g i locals
  let b ← Computation.ofExcept v.asBool
  return (b, locals)

/-- The names that tests bind in the expression of a stage, the first if there are several; none if it has a
hole. -/
def Body.declared? (b : Body NodeId) (p : Pool) : Option (List Symbol) :=
  match b.expr? with
  | some i => (p.term? i).map fun t => t.walk.filterMap Term.bound?
  | none => some []

/-! ### New variables -/

/-- Evaluates the expressions of new variables and adds those that the carrier has a field for. -/
def Carrier.extend (c : Carrier) (p : Pool) (g : Setting) (locals : Store) :
    List (BindingId × NodeId) → Run Store
  | [] => return locals
  | (id, e) :: rest => do
    let (v, locals) ← p.evalWith g e locals
    c.extend p g (c.addTo locals id v) rest

/-- Takes parts out of a composite and adds those that the carrier has a field for. -/
def Carrier.extract (c : Carrier) (composite : Value) (locals : Store) :
    List (BindingId × Nat) → Except Fault Store
  | [] => .ok locals
  | (id, position) :: rest =>
    match composite.part position with
    | .ok v => c.extract composite (c.addTo locals id v) rest
    | .error f => .error f

/-- The carriers of the members of a collection. -/
def Carrier.packEach (c : Carrier) (names : SymbolTable) (locals : Store) (id : BindingId) :
    List Value → Except Fault (List Value)
  | [] => .ok []
  | item :: rest =>
    match c.pack names (c.addTo locals id item) with
    | .ok v => (c.packEach names locals id rest).map (v :: ·)
    | .error f => .error f

/-! ### Steps -/

namespace Stage

/-- The variables that come in with a value. -/
def locals (index : Nat) (s : Stage NodeId) (v : Value) : Run Store :=
  Computation.ofOption (.shapeMismatch index) (s.input.unpack? v)

/-- The carrier that goes out. -/
def target (index : Nat) (s : Stage NodeId) : Run Carrier :=
  Computation.ofOption (.shapeMismatch index) s.output.carrier?

/-- What the stage at place `index` makes of a value, given the names that its tests bind. -/
def stepWith (p : Pool) (g : Setting) (index : Nat) (s : Stage NodeId) (v : Value) : Run (List Value) :=
  match s.kind, s.body with
  | .filter, .predicate e => do
    let locals ← s.locals index v
    let (b, _) ← p.holdsWith g e locals
    return if b then [v] else []
  | .filter, .rejectAbsent =>
    match s.input with
    | .outcome _ encoding => do
      let payload ← Computation.ofOption (.shapeMismatch index) (encoding.read? v)
      return if payload.isSome then [v] else []
    | _ => Computation.fail (.shapeMismatch index)
  | .map, .unwrap =>
    match s.input with
    | .outcome _ encoding => do
      let payload ← Computation.ofOption (.shapeMismatch index) (encoding.read? v).join
      return [payload]
    | _ => Computation.fail (.shapeMismatch index)
  | .map, .guard e =>
    match s.output with
    | .outcome c encoding => do
      let locals ← s.locals index v
      let (b, locals) ← p.holdsWith g e locals
      if b then
        let payload ← Computation.ofExcept (c.pack g.names locals)
        return [encoding.write (some payload)]
      else
        return [encoding.write none]
    | _ => Computation.fail (.shapeMismatch index)
  | .map, .extend bindings => do
    let c ← s.target index
    let locals ← s.locals index v
    let locals ← c.extend p g locals bindings
    let next ← Computation.ofExcept (c.pack g.names locals)
    return [next]
  | .map, .destructure e parts => do
    let c ← s.target index
    let locals ← s.locals index v
    let (composite, locals) ← p.evalWith g e locals
    let locals ← Computation.ofExcept (c.extract composite locals parts)
    let next ← Computation.ofExcept (c.pack g.names locals)
    return [next]
  | .flatMap, .generate e id => do
    let c ← s.target index
    let locals ← s.locals index v
    let (collection, locals) ← p.evalWith g e locals
    let items ← Computation.ofExcept collection.elements
    Computation.ofExcept (c.packEach g.names locals id items)
  | .map, .project e => do
    let locals ← s.locals index v
    let (result, _) ← p.evalWith g e locals
    return [result]
  -- the other pairs are no stages
  | _, _ => Computation.fail (.shapeMismatch index)

/-- What the stage at place `index` makes of a value. -/
def step (p : Pool) (names : SymbolTable) (index : Nat) (s : Stage NodeId) (v : Value) : Run (List Value) :=
  match s.body.declared? p with
  | some declared => s.stepWith p ⟨names, declared⟩ index v
  | none => throw .dangling

end Stage

end QueryPipeline
