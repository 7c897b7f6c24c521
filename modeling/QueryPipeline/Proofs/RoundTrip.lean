import QueryPipeline.Json.Pipeline

/-!
# Stored pipelines

A pipeline is read back from its document exactly if its numbers are within the ranges that they are stored in
(`Pipeline.readBack_iff`).  For each kind of data there are two facts: what is in range is read back from what it is
written as, and all that is read from any document is in range.
-/

namespace QueryPipeline

/-! ### Ranges -/

/-- Ids of nodes are stored in 32 bits. -/
def NodeId.InRange (i : NodeId) : Prop := i.index < idLimit

/-- Names are stored in 32 bits. -/
def Symbol.InRange (x : Symbol) : Prop := x.index < idLimit

/-- Ids of bindings are stored in 32 bits. -/
def BindingId.InRange (b : BindingId) : Prop := b.index < idLimit

/-- Both ends of a span are stored in 32 bits. -/
def Span.InRange (s : Span) : Prop := s.start < idLimit ∧ s.stop < idLimit

/-- A slice starts at a number of 32 bits, and is not longer than a list may be. -/
def Slice.InRange (s : Slice) : Prop := s.start < idLimit ∧ s.len ≤ maxListLength

/-- The numbers of the form are within their ranges; an integer is one of 64 bits. -/
def Form.InRange : Form → Prop
  | literal (.int n) => FitsInt64 n
  | literal (.str s) => s.InRange
  | literal (.bool _) | literal .null => True
  | ident x => x.InRange
  | connective _ l r | operator _ l r => l.InRange ∧ r.InRange
  | not e | neg e => e.InRange
  | test _ e x => e.InRange ∧ x.InRange
  | assign x e => x.InRange ∧ e.InRange
  | row _ s => s.InRange
  | part e k => e.InRange ∧ k < idLimit

/-- The numbers of the node are within their ranges. -/
def Node.InRange (n : Node) : Prop := n.form.InRange ∧ n.span.InRange

/-- The numbers of the nodes and of the table of lists are within their ranges. -/
def Pool.InRange (p : Pool) : Prop := (∀ n ∈ p.nodes.toList, n.InRange) ∧ ∀ i ∈ p.lists.toList, i.InRange

/-- The numbers of the field are within their ranges. -/
def Field.InRange (f : Field) : Prop := f.binding.InRange ∧ f.name.InRange

/-- The numbers of the carrier are within their ranges. -/
def Carrier.InRange (c : Carrier) : Prop := c.id < idLimit ∧ ∀ f ∈ c.fields, f.InRange

/-- The numbers of the carrier in the shape, if there is one, are within their ranges. -/
def Shape.InRange : Shape → Prop
  | carrier c | outcome c _ => c.InRange
  | projection _ => True

/-- The numbers of the computation are within their ranges. -/
def Body.InRange : Body NodeId → Prop
  | extend bindings => ∀ q ∈ bindings, q.1.InRange ∧ q.2.InRange
  | destructure e parts => e.InRange ∧ ∀ q ∈ parts, q.1.InRange ∧ q.2 < idLimit
  | generate e b => e.InRange ∧ b.InRange
  | predicate e | guard e | project e => e.InRange
  | rejectAbsent | unwrap => True

/-- The numbers of the stage are within their ranges; clauses are counted in 64 bits. -/
structure Stage.InRange (s : Stage NodeId) : Prop where
  input : s.input.InRange
  output : s.output.InRange
  body : s.body.InRange
  clause : s.clause < 18446744073709551616

/-- The numbers of the pipeline are within their ranges. -/
structure Pipeline.InRange (p : Pipeline) : Prop where
  pool : p.pool.InRange
  source : p.source.InRange
  sourceCarrier : p.sourceCarrier.InRange
  stages : ∀ s ∈ p.stages, s.InRange

/-! ### Numbers, lists and records -/

namespace Json

private theorem natBelow?_nat {limit n : Nat} (h : n < limit) : (nat n).natBelow? limit = some n := if_pos h

private theorem lt_of_natBelow? {limit n : Nat} {j : Json} (h : j.natBelow? limit = some n) : n < limit := by
  unfold natBelow? at h
  split at h
  · split at h
    next hlt =>
      obtain rfl := Option.some.inj h
      exact hlt
    next => cases h
  · cases h

private theorem id?_nat {n : Nat} (h : n < idLimit) : (nat n).id? = some n := natBelow?_nat h

private theorem lt_of_id? {n : Nat} {j : Json} (h : j.id? = some n) : n < idLimit := lt_of_natBelow? h

/-! An id is its number. -/

private theorem id?_map_nat {α : Type} (mk : Nat → α) {n : Nat} (h : n < idLimit) :
    (nat n).id?.map mk = some (mk n) := by
  rw [id?_nat h]
  rfl

private theorem lt_of_id?_map {α : Type} {mk : Nat → α} {index : α → Nat} (hindex : ∀ n, index (mk n) = n) {j : Json}
    {a : α} (h : j.id?.map mk = some a) : index a < idLimit := by
  obtain ⟨n, hn, rfl⟩ := Option.map_eq_some_iff.1 h
  rw [hindex]
  exact lt_of_id? hn

private theorem fits_of_int64? {n : Int} {j : Json} (h : j.int64? = some n) : FitsInt64 n := by
  unfold int64? at h
  split at h
  · split at h
    next hfits =>
      obtain rfl := Option.some.inj h
      exact hfits
    next => cases h
  · cases h

private theorem list?_list {α : Type} {write : α → Json} {read : Json → Option α} {as : List α}
    (h : ∀ a ∈ as, read (write a) = some a) : (list write as).list? read = some as := by
  show readAll read (as.map write) = some as
  induction as with
  | nil => rfl
  | cons a as ih =>
    have hrest := ih fun b hb => h b (by simp [hb])
    simp [readAll, h a (by simp), hrest]

private theorem forall_of_list? {α : Type} {P : α → Prop} {read : Json → Option α} {j : Json} {as : List α}
    (h : j.list? read = some as) (hP : ∀ j a, read j = some a → P a) : ∀ a ∈ as, P a := by
  cases j with
  | arr items =>
    have h : readAll read items = some as := h
    induction items generalizing as with
    | nil =>
      obtain rfl := Option.some.inj h
      simp
    | cons item items ih =>
      simp only [readAll, Option.bind_eq_bind, Option.bind_eq_some_iff, Option.some.injEq] at h
      obtain ⟨a, ha, as, has, rfl⟩ := h
      simpa using ⟨hP item a ha, ih has has⟩
  | null | bool | num | str | obj => cases h

end Json

/-! ### Expressions -/

private theorem NodeId.ofJson?_toJson {i : NodeId} (h : i.InRange) : ofJson? i.toJson = some i :=
  Json.id?_map_nat NodeId.mk h

private theorem NodeId.inRange_of_ofJson? {j : Json} {i : NodeId} (h : ofJson? j = some i) : i.InRange :=
  Json.lt_of_id?_map (fun _ => rfl) h

private theorem Symbol.ofJson?_toJson {x : Symbol} (h : x.InRange) : ofJson? x.toJson = some x :=
  Json.id?_map_nat Symbol.mk h

private theorem Symbol.inRange_of_ofJson? {j : Json} {x : Symbol} (h : ofJson? j = some x) : x.InRange :=
  Json.lt_of_id?_map (fun _ => rfl) h

mutual

private theorem Ty.ofJson?_toJson : ∀ t : Ty, ofJson? t.toJson = some t
  | .unit | .bool | .int | .str | .object | .unknown => by rfl
  | .nullable t => by simp [toJson, Json.variant, ofJson?, Ty.ofJson?_toJson t]
  | .list t => by simp [toJson, Json.variant, ofJson?, Ty.ofJson?_toJson t]
  | .tuple ts => by simp [toJson, Json.variant, ofJson?, Ty.ofJsons?_toJsons ts]

private theorem Ty.ofJsons?_toJsons : ∀ ts : List Ty, ofJsons? (toJsons ts) = some ts
  | [] => rfl
  | t :: ts => by simp [toJsons, ofJsons?, Ty.ofJson?_toJson t, Ty.ofJsons?_toJsons ts]

end

private theorem Span.ofJson?_toJson {s : Span} (h : s.InRange) : ofJson? s.toJson = some s := by
  have hfields : s.toJson.fields? ["start", "end"] = some [.nat s.start, .nat s.stop] := rfl
  simp [ofJson?, hfields, Json.id?_nat h.1, Json.id?_nat h.2]

private theorem Span.inRange_of_ofJson? {j : Json} {s : Span} (h : ofJson? j = some s) : s.InRange := by
  obtain ⟨vs, -, h⟩ := Option.bind_eq_some_iff.1 h
  split at h
  · simp only [Option.bind_eq_bind, Option.bind_eq_some_iff, Option.some.injEq] at h
    obtain ⟨start, hstart, stop, hstop, rfl⟩ := h
    exact ⟨Json.lt_of_id? hstart, Json.lt_of_id? hstop⟩
  · cases h

private theorem Slice.ofJson?_toJson {s : Slice} (h : s.InRange) : ofJson? s.toJson = some s := by
  have hfields : s.toJson.fields? ["start", "len"] = some [.nat s.start, .nat s.len] := rfl
  have hlen : (Json.nat s.len).length? = some s.len := Json.natBelow?_nat (Nat.lt_succ_of_le h.2)
  simp [ofJson?, hfields, Json.id?_nat h.1, hlen]

private theorem Slice.inRange_of_ofJson? {j : Json} {s : Slice} (h : ofJson? j = some s) : s.InRange := by
  obtain ⟨vs, -, h⟩ := Option.bind_eq_some_iff.1 h
  split at h
  · simp only [Option.bind_eq_bind, Option.bind_eq_some_iff, Option.some.injEq] at h
    obtain ⟨start, hstart, len, hlen, rfl⟩ := h
    exact ⟨Json.lt_of_id? hstart, Nat.le_of_lt_succ (Json.lt_of_natBelow? hlen)⟩
  · cases h

namespace Form

/-- Connectives and operators have different names. -/
private theorem ofBinary?_tag {l r : NodeId} (hl : l.InRange) (hr : r.InRange) :
    (∀ c : Connective, ofBinary? (.str c.tag) l.toJson r.toJson = some (connective c l r)) ∧
      ∀ op : Operator, ofBinary? (.str op.tag) l.toJson r.toJson = some (operator op l r) := by
  unfold ofBinary?
  rw [NodeId.ofJson?_toJson hl, NodeId.ofJson?_toJson hr]
  constructor
  · intro c
    cases c <;> rfl
  · intro op
    cases op <;> rfl

private theorem ofJson?_toJson {f : Form} (h : f.InRange) : ofJson? f.toJson = some f := by
  cases f with
  | literal l =>
    cases l with
    | int n =>
      have hn : (Json.num n).int64? = some n := if_pos h
      show (Json.num n).int64?.map _ = _
      rw [hn]
      rfl
    | bool b => rfl
    | str s =>
      show (Symbol.ofJson? s.toJson).map _ = _
      rw [Symbol.ofJson?_toJson h]
      rfl
    | null => rfl
  | ident x =>
    show (Symbol.ofJson? x.toJson).map _ = _
    rw [Symbol.ofJson?_toJson h]
    rfl
  | connective c l r => exact (ofBinary?_tag h.1 h.2).1 c
  | operator op l r => exact (ofBinary?_tag h.1 h.2).2 op
  | not e =>
    show ofUnary? (.str "Not") e.toJson = _
    rw [ofUnary?, NodeId.ofJson?_toJson h]
    rfl
  | neg e =>
    show ofUnary? (.str "Neg") e.toJson = _
    rw [ofUnary?, NodeId.ofJson?_toJson h]
    rfl
  | test t e x =>
    cases t with
    | hasType ty =>
      show (do some (test (.hasType (← Ty.ofJson? ty.toJson)) (← NodeId.ofJson? e.toJson)
        (← Symbol.ofJson? x.toJson))) = _
      rw [Ty.ofJson?_toJson, NodeId.ofJson?_toJson h.1, Symbol.ofJson?_toJson h.2]
      rfl
    | parsesInt =>
      show (do some (test .parsesInt (← NodeId.ofJson? e.toJson) (← Symbol.ofJson? x.toJson))) = _
      rw [NodeId.ofJson?_toJson h.1, Symbol.ofJson?_toJson h.2]
      rfl
  | assign x e =>
    show (do some (assign (← Symbol.ofJson? x.toJson) (← NodeId.ofJson? e.toJson))) = _
    rw [Symbol.ofJson?_toJson h.1, NodeId.ofJson?_toJson h.2]
    rfl
  | row kind s =>
    cases kind with
    | tuple | list =>
      show (Slice.ofJson? s.toJson).map _ = _
      rw [Slice.ofJson?_toJson h]
      rfl
  | part e k =>
    show (do some (part (← NodeId.ofJson? e.toJson) (← (Json.nat k).id?))) = _
    rw [NodeId.ofJson?_toJson h.1, Json.id?_nat h.2]
    rfl

private theorem inRange_of_ofBinary? {op left right : Json} {f : Form} (h : ofBinary? op left right = some f) :
    f.InRange := by
  simp only [ofBinary?, Option.bind_eq_bind, Option.bind_eq_some_iff] at h
  obtain ⟨name, -, l, hl, r, hr, h⟩ := h
  have hl := NodeId.inRange_of_ofJson? hl
  have hr := NodeId.inRange_of_ofJson? hr
  rcases Option.or_eq_some_iff.1 h with h | ⟨-, h⟩
  · obtain ⟨c, -, rfl⟩ := Option.map_eq_some_iff.1 h
    exact ⟨hl, hr⟩
  · obtain ⟨op, -, rfl⟩ := Option.map_eq_some_iff.1 h
    exact ⟨hl, hr⟩

private theorem inRange_of_ofUnary? {op operand : Json} {f : Form} (h : ofUnary? op operand = some f) : f.InRange := by
  simp only [ofUnary?, Option.bind_eq_bind, Option.bind_eq_some_iff] at h
  obtain ⟨name, -, e, he, h⟩ := h
  have he := NodeId.inRange_of_ofJson? he
  split at h
  · obtain rfl := Option.some.inj h
    exact he
  · split at h
    · obtain rfl := Option.some.inj h
      exact he
    · cases h

private theorem inRange_of_ofVariant? {name : String} {content : Json} {f : Form}
    (h : ofVariant? name content = some f) : f.InRange := by
  unfold ofVariant? at h
  -- one case for each name, and for each record the case of its fields
  split at h
  · obtain ⟨n, hn, rfl⟩ := Option.map_eq_some_iff.1 h
    exact Json.fits_of_int64? hn
  · obtain ⟨b, -, rfl⟩ := Option.map_eq_some_iff.1 h
    trivial
  · obtain ⟨s, hs, rfl⟩ := Option.map_eq_some_iff.1 h
    exact Symbol.inRange_of_ofJson? hs
  · split at h
    · obtain rfl := Option.some.inj h
      trivial
    · cases h
  · obtain ⟨x, hx, rfl⟩ := Option.map_eq_some_iff.1 h
    exact Symbol.inRange_of_ofJson? hx
  · obtain ⟨vs, -, h⟩ := Option.bind_eq_some_iff.1 h
    split at h
    · exact inRange_of_ofBinary? h
    · cases h
  · obtain ⟨vs, -, h⟩ := Option.bind_eq_some_iff.1 h
    split at h
    · exact inRange_of_ofUnary? h
    · cases h
  · obtain ⟨vs, -, h⟩ := Option.bind_eq_some_iff.1 h
    split at h
    · simp only [Option.bind_eq_bind, Option.bind_eq_some_iff, Option.some.injEq] at h
      obtain ⟨ty, -, e, he, x, hx, rfl⟩ := h
      exact ⟨NodeId.inRange_of_ofJson? he, Symbol.inRange_of_ofJson? hx⟩
    · cases h
  · obtain ⟨vs, -, h⟩ := Option.bind_eq_some_iff.1 h
    split at h
    · simp only [Option.bind_eq_bind, Option.bind_eq_some_iff, Option.some.injEq] at h
      obtain ⟨e, he, x, hx, rfl⟩ := h
      exact ⟨NodeId.inRange_of_ofJson? he, Symbol.inRange_of_ofJson? hx⟩
    · cases h
  · obtain ⟨vs, -, h⟩ := Option.bind_eq_some_iff.1 h
    split at h
    · simp only [Option.bind_eq_bind, Option.bind_eq_some_iff, Option.some.injEq] at h
      obtain ⟨x, hx, e, he, rfl⟩ := h
      exact ⟨Symbol.inRange_of_ofJson? hx, NodeId.inRange_of_ofJson? he⟩
    · cases h
  · obtain ⟨s, hs, rfl⟩ := Option.map_eq_some_iff.1 h
    exact Slice.inRange_of_ofJson? hs
  · obtain ⟨s, hs, rfl⟩ := Option.map_eq_some_iff.1 h
    exact Slice.inRange_of_ofJson? hs
  · obtain ⟨vs, -, h⟩ := Option.bind_eq_some_iff.1 h
    split at h
    · simp only [Option.bind_eq_bind, Option.bind_eq_some_iff, Option.some.injEq] at h
      obtain ⟨e, he, k, hk, rfl⟩ := h
      exact ⟨NodeId.inRange_of_ofJson? he, Json.lt_of_id? hk⟩
    · cases h
  · cases h

private theorem inRange_of_ofJson? {j : Json} {f : Form} (h : ofJson? j = some f) : f.InRange := by
  unfold ofJson? at h
  split at h
  · exact inRange_of_ofVariant? h
  · split at h
    · obtain rfl := Option.some.inj h
      trivial
    · cases h
  · cases h

end Form

private theorem Node.ofJson?_toJson {n : Node} (h : n.InRange) : ofJson? n.toJson = some n := by
  show (do some (Node.mk (← Form.ofJson? n.form.toJson) (← Span.ofJson? n.span.toJson))) = _
  rw [Form.ofJson?_toJson h.1, Span.ofJson?_toJson h.2]
  rfl

private theorem Node.inRange_of_ofJson? {j : Json} {n : Node} (h : ofJson? j = some n) : n.InRange := by
  obtain ⟨vs, -, h⟩ := Option.bind_eq_some_iff.1 h
  split at h
  · simp only [Option.bind_eq_bind, Option.bind_eq_some_iff, Option.some.injEq] at h
    obtain ⟨form, hform, span, hspan, rfl⟩ := h
    exact ⟨Form.inRange_of_ofJson? hform, Span.inRange_of_ofJson? hspan⟩
  · cases h

private theorem Pool.ofJson?_toJson {p : Pool} (h : p.InRange) : ofJson? p.toJson = some p := by
  show (do some (Pool.mk (← (Json.list Node.toJson p.nodes.toList).list? Node.ofJson?).toArray
    (← (Json.list NodeId.toJson p.lists.toList).list? NodeId.ofJson?).toArray)) = _
  rw [Json.list?_list fun n hn => Node.ofJson?_toJson (h.1 n hn),
    Json.list?_list fun i hi => NodeId.ofJson?_toJson (h.2 i hi)]
  rfl

private theorem Pool.inRange_of_ofJson? {j : Json} {p : Pool} (h : ofJson? j = some p) : p.InRange := by
  obtain ⟨vs, -, h⟩ := Option.bind_eq_some_iff.1 h
  split at h
  · simp only [Option.bind_eq_bind, Option.bind_eq_some_iff, Option.some.injEq] at h
    obtain ⟨nodes, hnodes, lists, hlists, rfl⟩ := h
    exact ⟨Json.forall_of_list? hnodes fun _ _ => Node.inRange_of_ofJson?,
      Json.forall_of_list? hlists fun _ _ => NodeId.inRange_of_ofJson?⟩
  · cases h

/-! ### Carriers and shapes -/

private theorem BindingId.ofJson?_toJson {b : BindingId} (h : b.InRange) : ofJson? b.toJson = some b :=
  Json.id?_map_nat BindingId.mk h

private theorem BindingId.inRange_of_ofJson? {j : Json} {b : BindingId} (h : ofJson? j = some b) : b.InRange :=
  Json.lt_of_id?_map (fun _ => rfl) h

private theorem Field.ofJson?_toJson {f : Field} (h : f.InRange) : ofJson? f.toJson = some f := by
  show (do some (Field.mk (← BindingId.ofJson? f.binding.toJson) (← Symbol.ofJson? f.name.toJson)
    (← Ty.ofJson? f.ty.toJson))) = _
  rw [BindingId.ofJson?_toJson h.1, Symbol.ofJson?_toJson h.2, Ty.ofJson?_toJson]
  rfl

private theorem Field.inRange_of_ofJson? {j : Json} {f : Field} (h : ofJson? j = some f) : f.InRange := by
  obtain ⟨vs, -, h⟩ := Option.bind_eq_some_iff.1 h
  split at h
  · simp only [Option.bind_eq_bind, Option.bind_eq_some_iff, Option.some.injEq] at h
    obtain ⟨b, hb, x, hx, ty, -, rfl⟩ := h
    exact ⟨BindingId.inRange_of_ofJson? hb, Symbol.inRange_of_ofJson? hx⟩
  · cases h

private theorem Carrier.ofJson?_toJson {c : Carrier} (h : c.InRange) : ofJson? c.toJson = some c := by
  show (do some (Carrier.mk (← (Json.nat c.id).id?) (← (Json.list Field.toJson c.fields).list? Field.ofJson?))) = _
  rw [Json.id?_nat h.1, Json.list?_list fun f hf => Field.ofJson?_toJson (h.2 f hf)]
  rfl

private theorem Carrier.inRange_of_ofJson? {j : Json} {c : Carrier} (h : ofJson? j = some c) : c.InRange := by
  obtain ⟨vs, -, h⟩ := Option.bind_eq_some_iff.1 h
  split at h
  · simp only [Option.bind_eq_bind, Option.bind_eq_some_iff, Option.some.injEq] at h
    obtain ⟨id, hid, fields, hfields, rfl⟩ := h
    exact ⟨Json.lt_of_id? hid, Json.forall_of_list? hfields fun _ _ => Field.inRange_of_ofJson?⟩
  · cases h

private theorem Shape.ofJson?_toJson {s : Shape} (h : s.InRange) : ofJson? s.toJson = some s := by
  cases s with
  | carrier c =>
    show (Carrier.ofJson? c.toJson).map _ = _
    rw [Carrier.ofJson?_toJson h]
    rfl
  | outcome c encoding =>
    show (do some (outcome (← Carrier.ofJson? c.toJson) (← Encoding.ofTag? encoding.tag))) = _
    rw [Carrier.ofJson?_toJson h]
    cases encoding <;> rfl
  | projection ty =>
    show (Ty.ofJson? ty.toJson).map _ = _
    rw [Ty.ofJson?_toJson]
    rfl

private theorem Shape.inRange_of_ofJson? {j : Json} {s : Shape} (h : ofJson? j = some s) : s.InRange := by
  unfold ofJson? at h
  split at h
  · obtain ⟨c, hc, rfl⟩ := Option.map_eq_some_iff.1 h
    exact Carrier.inRange_of_ofJson? hc
  · obtain ⟨vs, -, h⟩ := Option.bind_eq_some_iff.1 h
    split at h
    · simp only [Option.bind_eq_bind, Option.bind_eq_some_iff, Option.some.injEq] at h
      obtain ⟨c, hc, encoding, -, rfl⟩ := h
      exact Carrier.inRange_of_ofJson? hc
    · cases h
  · obtain ⟨ty, -, rfl⟩ := Option.map_eq_some_iff.1 h
    trivial
  · cases h

/-! ### Stages -/

namespace Body

private theorem extension?_pair {q : BindingId × NodeId} (h : q.1.InRange ∧ q.2.InRange) :
    extension? (.pair q.1.toJson q.2.toJson) = some q := by
  show (do some (← BindingId.ofJson? q.1.toJson, ← NodeId.ofJson? q.2.toJson)) = _
  rw [BindingId.ofJson?_toJson h.1, NodeId.ofJson?_toJson h.2]
  rfl

private theorem inRange_of_extension? {j : Json} {q : BindingId × NodeId} (h : extension? j = some q) :
    q.1.InRange ∧ q.2.InRange := by
  simp only [extension?, Option.bind_eq_bind, Option.bind_eq_some_iff, Option.some.injEq] at h
  obtain ⟨_, -, b, hb, e, he, rfl⟩ := h
  exact ⟨BindingId.inRange_of_ofJson? hb, NodeId.inRange_of_ofJson? he⟩

private theorem position?_pair {q : BindingId × Nat} (h : q.1.InRange ∧ q.2 < idLimit) :
    position? (.pair q.1.toJson (.nat q.2)) = some q := by
  show (do some (← BindingId.ofJson? q.1.toJson, ← (Json.nat q.2).id?)) = _
  rw [BindingId.ofJson?_toJson h.1, Json.id?_nat h.2]
  rfl

private theorem inRange_of_position? {j : Json} {q : BindingId × Nat} (h : position? j = some q) :
    q.1.InRange ∧ q.2 < idLimit := by
  simp only [position?, Option.bind_eq_bind, Option.bind_eq_some_iff, Option.some.injEq] at h
  obtain ⟨_, -, b, hb, k, hk, rfl⟩ := h
  exact ⟨BindingId.inRange_of_ofJson? hb, Json.lt_of_id? hk⟩

private theorem inRange_of_soleExpr? {key : String} {j : Json} {e : NodeId} (h : soleExpr? key j = some e) :
    e.InRange := by
  obtain ⟨vs, -, h⟩ := Option.bind_eq_some_iff.1 h
  split at h
  · exact NodeId.inRange_of_ofJson? h
  · cases h

private theorem ofJson?_toJson {b : Body NodeId} (h : b.InRange) : ofJson? b.toJson = some b := by
  cases b with
  | extend bindings =>
    show (do some (extend
      (← (Json.list (fun q : BindingId × NodeId => .pair q.1.toJson q.2.toJson) bindings).list? extension?))) = _
    rw [Json.list?_list fun q hq => extension?_pair (h q hq)]
    rfl
  | destructure e parts =>
    show (do some (destructure (← NodeId.ofJson? e.toJson)
      (← (Json.list (fun q : BindingId × Nat => .pair q.1.toJson (.nat q.2)) parts).list? position?))) = _
    rw [NodeId.ofJson?_toJson h.1, Json.list?_list fun q hq => position?_pair (h.2 q hq)]
    rfl
  | generate e b =>
    show (do some (generate (← NodeId.ofJson? e.toJson) (← BindingId.ofJson? b.toJson))) = _
    rw [NodeId.ofJson?_toJson h.1, BindingId.ofJson?_toJson h.2]
    rfl
  | predicate e | guard e | project e =>
    show (NodeId.ofJson? e.toJson).map _ = _
    rw [NodeId.ofJson?_toJson h]
    rfl
  | rejectAbsent | unwrap => rfl

private theorem inRange_of_ofVariant? {name : String} {content : Json} {b : Body NodeId}
    (h : ofVariant? name content = some b) : b.InRange := by
  unfold ofVariant? at h
  split at h
  · obtain ⟨vs, -, h⟩ := Option.bind_eq_some_iff.1 h
    split at h
    · simp only [Option.bind_eq_bind, Option.bind_eq_some_iff, Option.some.injEq] at h
      obtain ⟨bindings, hbindings, rfl⟩ := h
      exact Json.forall_of_list? hbindings fun _ _ => inRange_of_extension?
    · cases h
  · obtain ⟨vs, -, h⟩ := Option.bind_eq_some_iff.1 h
    split at h
    · simp only [Option.bind_eq_bind, Option.bind_eq_some_iff, Option.some.injEq] at h
      obtain ⟨e, he, parts, hparts, rfl⟩ := h
      exact ⟨NodeId.inRange_of_ofJson? he, Json.forall_of_list? hparts fun _ _ => inRange_of_position?⟩
    · cases h
  · obtain ⟨vs, -, h⟩ := Option.bind_eq_some_iff.1 h
    split at h
    · simp only [Option.bind_eq_bind, Option.bind_eq_some_iff, Option.some.injEq] at h
      obtain ⟨e, he, b, hb, rfl⟩ := h
      exact ⟨NodeId.inRange_of_ofJson? he, BindingId.inRange_of_ofJson? hb⟩
    · cases h
  · obtain ⟨e, he, rfl⟩ := Option.map_eq_some_iff.1 h
    exact inRange_of_soleExpr? he
  · obtain ⟨e, he, rfl⟩ := Option.map_eq_some_iff.1 h
    exact inRange_of_soleExpr? he
  · obtain ⟨e, he, rfl⟩ := Option.map_eq_some_iff.1 h
    exact inRange_of_soleExpr? he
  · cases h

private theorem inRange_of_ofJson? {j : Json} {b : Body NodeId} (h : ofJson? j = some b) : b.InRange := by
  unfold ofJson? at h
  split at h
  · obtain rfl := Option.some.inj h
    trivial
  · obtain rfl := Option.some.inj h
    trivial
  · split at h
    · exact inRange_of_ofVariant? h
    · cases h

end Body

private theorem Stage.ofJson?_toJson {s : Stage NodeId} (h : s.InRange) : ofJson? s.toJson = some s := by
  have hkind : Combinator.ofTag? s.kind.tag = some s.kind := by
    cases s.kind <;> rfl
  have hclause : (Json.nat s.clause).count? = some s.clause := Json.natBelow?_nat h.clause
  show (do some (Stage.mk (← Combinator.ofTag? s.kind.tag) (← Shape.ofJson? s.input.toJson)
    (← Shape.ofJson? s.output.toJson) (← Body.ofJson? s.body.toJson) (← (Json.nat s.clause).count?))) = _
  rw [hkind, Shape.ofJson?_toJson h.input, Shape.ofJson?_toJson h.output, Body.ofJson?_toJson h.body, hclause]
  rfl

private theorem Stage.inRange_of_ofJson? {j : Json} {s : Stage NodeId} (h : ofJson? j = some s) : s.InRange := by
  obtain ⟨vs, -, h⟩ := Option.bind_eq_some_iff.1 h
  split at h
  · simp only [Option.bind_eq_bind, Option.bind_eq_some_iff, Option.some.injEq] at h
    obtain ⟨kind, -, input, hinput, output, houtput, body, hbody, clause, hclause, rfl⟩ := h
    exact ⟨Shape.inRange_of_ofJson? hinput, Shape.inRange_of_ofJson? houtput, Body.inRange_of_ofJson? hbody,
      Json.lt_of_natBelow? hclause⟩
  · cases h

/-! ### Pipelines -/

/-- What is read from a document is in range. -/
private theorem Pipeline.inRange_of_ofJson? {j : Json} {p : Pipeline} (h : ofJson? j = some p) : p.InRange := by
  obtain ⟨vs, -, h⟩ := Option.bind_eq_some_iff.1 h
  split at h
  · simp only [Option.bind_eq_bind, Option.bind_eq_some_iff, Option.some.injEq] at h
    obtain ⟨pool, hpool, source, hsource, carrier, hcarrier, stages, hstages, rfl⟩ := h
    exact ⟨Pool.inRange_of_ofJson? hpool, NodeId.inRange_of_ofJson? hsource, Carrier.inRange_of_ofJson? hcarrier,
      Json.forall_of_list? hstages fun _ _ => Stage.inRange_of_ofJson?⟩
  · cases h

/-- A pipeline is read back from what it is written as exactly if its numbers are within their ranges. -/
theorem Pipeline.readBack_iff (p : Pipeline) : Pipeline.ofJson? p.toJson = some p ↔ p.InRange := by
  constructor
  · exact inRange_of_ofJson?
  · intro h
    show (do some (Pipeline.mk (← Pool.ofJson? p.pool.toJson) (← NodeId.ofJson? p.source.toJson)
      (← Carrier.ofJson? p.sourceCarrier.toJson) (← (Json.list Stage.toJson p.stages).list? Stage.ofJson?))) = _
    rw [Pool.ofJson?_toJson h.pool, NodeId.ofJson?_toJson h.source, Carrier.ofJson?_toJson h.sourceCarrier,
      Json.list?_list fun s hs => Stage.ofJson?_toJson (h.stages s hs)]
    rfl

/-- A pipeline with the largest numbers that can be stored, and the least integer. -/
def Pipeline.limits : Pipeline where
  pool :=
    { nodes := #[⟨.literal (.int (-9223372036854775808)), ⟨0, 4294967295⟩⟩,
        ⟨.literal (.int 9223372036854775807), ⟨4294967295, 0⟩⟩, ⟨.row .tuple ⟨4294967295, 65535⟩, ⟨0, 0⟩⟩,
        ⟨.test (.hasType (.tuple [.nullable .int, .list .unknown])) ⟨4294967295⟩ ⟨4294967295⟩, ⟨0, 0⟩⟩,
        ⟨.part ⟨0⟩ 4294967295, ⟨0, 0⟩⟩]
      lists := #[⟨4294967295⟩, ⟨0⟩] }
  source := ⟨4294967295⟩
  sourceCarrier := ⟨4294967295, [⟨⟨4294967295⟩, ⟨4294967295⟩, .tuple []⟩]⟩
  stages :=
    [⟨.flatMap, .outcome ⟨0, []⟩ .tagged, .projection .str, .destructure ⟨0⟩ [(⟨4294967295⟩, 4294967295)],
      18446744073709551615⟩]

theorem Pipeline.limits_readBack :
    Pipeline.limits.InRange ∧ Pipeline.ofJson? Pipeline.limits.toJson = some Pipeline.limits := by
  have hpool : Pipeline.limits.pool.InRange := by
    simp [Pool.InRange, limits, Node.InRange, Form.InRange, FitsInt64, Slice.InRange, NodeId.InRange, Symbol.InRange,
      Span.InRange, idLimit, maxListLength]
  have hsource : Pipeline.limits.source.InRange := by simp [NodeId.InRange, limits, idLimit]
  have hcarrier : Pipeline.limits.sourceCarrier.InRange := by
    simp [Carrier.InRange, limits, Field.InRange, BindingId.InRange, Symbol.InRange, idLimit]
  have hstages : ∀ s ∈ Pipeline.limits.stages, s.InRange := by
    intro s hs
    obtain rfl := List.mem_singleton.1 hs
    refine ⟨?_, trivial, ?_, by decide⟩
    · simp [Shape.InRange, Carrier.InRange, idLimit]
    · simp [Body.InRange, NodeId.InRange, BindingId.InRange, idLimit]
  have hrange : Pipeline.limits.InRange := ⟨hpool, hsource, hcarrier, hstages⟩
  exact ⟨hrange, (Pipeline.readBack_iff _).2 hrange⟩

end QueryPipeline
