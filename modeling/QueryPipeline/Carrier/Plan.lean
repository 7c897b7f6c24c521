import QueryPipeline.Carrier.Basic
import QueryPipeline.Flow.Basic

/-!
# Plans of what is carried

After each clause but the last a carrier is planned: the variables introduced so far that a later clause uses.
Two carriers are not made for the purpose: the elements of the source come as they are, and a filter none of
whose pattern variables is used later passes on what it got.
-/

namespace QueryPipeline

/-- The parts of a composite that are taken out, each with its position. -/
structure Extraction where
  source : NodeId
  parts : List (BindingId × Nat)
deriving DecidableEq, Inhabited, Repr

/-- What is carried after a clause. -/
structure Boundary where
  afterClause : Nat
  carrier : Carrier
  /-- How failure is told, if the clause is a filter that binds variables used later. -/
  outcome : Option Encoding
  /-- The parts taken out, if the clause takes a composite apart. -/
  extraction : Option Extraction
  /-- Whether the carrier is made for this place. -/
  isMade : Bool
deriving DecidableEq, Inhabited, Repr

/-- What is carried after each clause but the last. -/
structure Plan where
  boundaries : List Boundary
deriving DecidableEq, Inhabited, Repr

namespace Boundary

/-- Whether the boundary's carrier loses a field when the binding is dropped. -/
def carries (b : Boundary) (id : BindingId) : Bool := b.carrier.contains id

/-- The boundary without the binding. -/
def drop (b : Boundary) (id : BindingId) : Boundary :=
  { b with
    carrier := { b.carrier with fields := b.carrier.fields.filter fun f => f.binding != id }
    extraction := b.extraction.map fun e => { e with parts := e.parts.filter fun p => p.1 != id } }

end Boundary

namespace Plan

/-- The number of boundaries. -/
def size (p : Plan) : Nat := p.boundaries.length

/-- Whether there are no boundaries. -/
def isEmpty (p : Plan) : Bool := p.boundaries.isEmpty

/-- What is carried after a clause. -/
def boundary? (p : Plan) (afterClause : Nat) : Option Boundary := p.boundaries[afterClause]?

/-- The plan without a binding after a clause, and whether it was carried there. -/
def drop (p : Plan) (afterClause : Nat) (id : BindingId) : Bool × Plan :=
  ((p.boundary? afterClause).any (·.carries id), ⟨p.boundaries.modify afterClause (·.drop id)⟩)

end Plan

/-! ### Liveness -/

/-- Puts a binding into a list of bindings in increasing order, unless it is there. -/
def BindingId.insert (b : BindingId) : List BindingId → List BindingId
  | [] => [b]
  | a :: as => if b.index < a.index then b :: a :: as else if b = a then a :: as else a :: insert b as

/-- The bindings that are used after each clause, in increasing order, given those that each clause uses.  What is
used after a clause is what the next one uses and what is used after that. -/
def liveAfter : List (List BindingId) → List (List BindingId)
  | [] => []
  | [_] => [[]]
  | _ :: next :: rest =>
    match liveAfter (next :: rest) with
    | [] => []
    | live :: later => next.foldr BindingId.insert live :: live :: later

/-- The bindings of earlier clauses that each clause uses. -/
def Flow.readSets (f : Flow) : List (List BindingId) := f.uses.map fun us => (readsOf us).map Prod.fst

/-! ### Planning -/

/-- The number of parts of the value that a clause takes apart: counted if it is written as a tuple, else known
from the clause's type. -/
def Link.parts? (l : Link) : Option Nat :=
  match l.term with
  | .row _ .tuple items => some items.length
  | _ => l.ty.arity?

/-- The live parts that the clause at place `clause` takes out, if its names fit the value. -/
def Link.extraction (l : Link) (clause : Nat) (live : List BindingId) : Except Rejection Extraction :=
  if l.parts? = some l.ranges.len then
    .ok ⟨l.expr, l.ranges.ids.zipIdx.filter fun p => live.contains p.1⟩
  else
    .error ⟨clause, l.span, .arity l.ranges.len l.parts?⟩

namespace Chain

/-- The carrier of some bindings after a clause.  Its id is the place of the clause without a bound; an id of 32 bits
would be the same for all clauses from place `2 ^ 32 - 1` on. -/
def carrierOf (c : Chain) (clause : Nat) (ids : List BindingId) : Carrier where
  id := clause
  fields := ids.filterMap fun id => (c.binding? id).map fun b => ⟨id, b.name, b.ty⟩

/-- The carrier of the live bindings introduced up to a clause. -/
def minimalCarrier (c : Chain) (clause : Nat) (live : List BindingId) : Carrier :=
  c.carrierOf clause <| live.filter fun id => (c.binding? id).any fun b => b.clause ≤ clause

/-- What is carried after the clause at place `clause`, given what is carried before it and what is live
after it. -/
def boundaryAfter (c : Chain) (clause : Nat) (before : Carrier) (live : List BindingId) (l : Link) :
    Except Rejection Boundary :=
  let carrier := c.minimalCarrier clause live
  match l.kind with
  | .filter =>
    if l.patterns.ids.any live.contains then
      .ok ⟨clause, carrier, some carrier.encoding, none, true⟩
    else
      .ok ⟨clause, before, none, none, false⟩
  | .unpack => do
    let extraction ← l.extraction clause live
    return ⟨clause, carrier, none, some extraction, true⟩
  | _ => .ok ⟨clause, carrier, none, none, true⟩

/-- What is carried after each of the clauses from place `clause` on, but for the last one. -/
def boundariesFrom (c : Chain) : (clause : Nat) → (before : Carrier) → List (Link × List BindingId) →
    Except Rejection (List Boundary)
  | _, _, [] => .ok []
  | _, _, [_] => .ok []
  | clause, before, (l, live) :: rest => do
    let b ← c.boundaryAfter clause before live l
    let later ← c.boundariesFrom (clause + 1) b.carrier rest
    return b :: later

/-- Planning goes on while two clauses are left. -/
theorem boundariesFrom_two (c : Chain) (clause : Nat) (before : Carrier) (q q' : Link × List BindingId)
    (rows : List (Link × List BindingId)) :
    c.boundariesFrom clause before (q :: q' :: rows) = c.boundaryAfter clause before q.2 q.1 >>= fun b =>
      c.boundariesFrom (clause + 1) b.carrier (q' :: rows) >>= fun later => pure (b :: later) := rfl

/-- The plan of what is carried, unless a row of names does not fit its value. -/
def plan (c : Chain) (f : Flow) : Except (Failure Report) Plan :=
  let source : Carrier := c.carrierOf 0 ((c.links.head?.map fun l => ⟨l.ranges.start⟩).toList)
  match c.boundariesFrom 1 source ((c.links.zip (liveAfter f.readSets)).drop 1) with
  | .error r => .error (.error (.one r))
  | .ok later => .ok ⟨⟨0, source, none, none, false⟩ :: later⟩

end Chain

end QueryPipeline
