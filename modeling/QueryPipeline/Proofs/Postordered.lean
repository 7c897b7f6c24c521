import QueryPipeline.Query.Draft
import QueryPipeline.Proofs.Grounded

/-!
# Pools in postorder

A pool is in postorder if the lists of its rows lie within the table and every node stands after its operands
(`Pool.Postordered`).  Then all that is in the pool is grounded (`Pool.Postordered.grounded`).

Pools come to be in postorder since a node can only be given operands that are there already.  Adding such a node keeps
the order (`Pool.Postordered.add`), and so does adding a list (`Pool.Postordered.addList`).  A draft places the operands
of an expression before the expression, so the pool of a draft is in postorder whatever has been placed in it
(`Draft.placeAll_postordered`).
-/

namespace QueryPipeline

/-- The stretch of the table that the members of a row are in. -/
def Form.slice? : Form → Option Slice
  | .row _ s => some s
  | _ => none

namespace Pool

variable {p : Pool} {i : NodeId} {is : List NodeId}

/-- The lists of the rows lie within the table, and every node stands after its operands. -/
structure Postordered (p : Pool) : Prop where
  slices : ∀ n ∈ p.nodes.toList, ∀ s ∈ n.form.slice?, s.start + s.len ≤ p.lists.size
  operands : ∀ k < p.size, ∀ j ∈ (p.operands? ⟨k⟩).getD [], j.index < k

instance : DecidablePred Postordered := fun p =>
  decidable_of_iff
    ((∀ n ∈ p.nodes.toList, ∀ s ∈ n.form.slice?, s.start + s.len ≤ p.lists.size) ∧
      ∀ k < p.size, ∀ j ∈ (p.operands? ⟨k⟩).getD [], j.index < k)
    ⟨fun h => ⟨h.1, h.2⟩, fun h => ⟨h.slices, h.operands⟩⟩

private theorem mem_nodes_of_get? {n : Node} (h : p.get? i = some n) : n ∈ p.nodes.toList := by
  obtain ⟨hi, rfl⟩ := Array.getElem?_eq_some_iff.1 h
  exact Array.mem_toList_iff.2 (Array.getElem_mem hi)

private theorem exists_get? (h : i.index < p.size) : ∃ n, p.get? i = some n :=
  ⟨_, Array.getElem?_eq_getElem h⟩

/-- A form has operands unless it is a row with a list outside the table. -/
theorem isSome_operandsOf? {form : Form} :
    (p.operandsOf? form).isSome = true ↔ ∀ s ∈ form.slice?, s.start + s.len ≤ p.lists.size := by
  cases form with
  | row kind s => simp [operandsOf?, slice?, Form.slice?]
  | _ => simp [operandsOf?, Form.slice?]

/-- A list is still found if the table has grown. -/
theorem slice?_append {s : Slice} (h : p.slice? s = some is) (more : Array NodeId) :
    slice? ⟨p.nodes, p.lists ++ more⟩ s = some is := by
  unfold slice? at h ⊢
  split at h
  · rename_i hle
    have hend : s.start + s.len - p.lists.size = 0 := Nat.sub_eq_zero_of_le hle
    rw [if_pos (by rw [Array.size_append]; omega), Array.extract_append, hend]
    simpa using h
  · cases h

private theorem operandsOf?_append {form : Form} (h : p.operandsOf? form = some is) (more : Array NodeId) :
    operandsOf? ⟨p.nodes, p.lists ++ more⟩ form = some is := by
  cases form with
  | row kind s => exact slice?_append h more
  | _ => exact h

namespace Postordered

theorem exists_operands (hp : p.Postordered) (hi : i.index < p.size) : ∃ is, p.operands? i = some is := by
  obtain ⟨n, hn⟩ := exists_get? hi
  have hsome := isSome_operandsOf?.2 (hp.slices n (mem_nodes_of_get? hn))
  obtain ⟨is, his⟩ := Option.isSome_iff_exists.1 hsome
  exact ⟨is, by rw [operands?, hn]; exact his⟩

theorem index_lt (hp : p.Postordered) (hi : p.operands? i = some is) {j : NodeId} (hj : j ∈ is) :
    j.index < i.index := by
  have h := hp.operands i.index (index_lt_of_operands hi) j
  rw [hi] at h
  exact h hj

/-- Whatever is in the pool is grounded. -/
theorem grounded {i : NodeId} (hp : p.Postordered) (hi : i.index < p.size) : p.Grounded i := by
  obtain ⟨is, his⟩ := hp.exists_operands hi
  refine .intro his ?_
  intro j hj
  have hlt := hp.index_lt his hj
  exact grounded hp (Nat.lt_trans hlt hi)
termination_by i.index

/-! ### Growing -/

theorem empty : Pool.empty.Postordered := by decide

/-- A node may be added whose operands are in the pool. -/
theorem add (hp : p.Postordered) {n : Node} (hn : p.operandsOf? n.form = some is)
    (his : ∀ j ∈ is, j.index < p.size) : (p.add n).2.Postordered := by
  have hform : ∀ form, (p.add n).2.operandsOf? form = p.operandsOf? form := fun form => by cases form <;> rfl
  have hsize : (p.add n).2.size = p.size + 1 := Array.size_push _
  constructor
  · intro m hm s hs
    rw [Array.mem_toList_iff] at hm
    rcases Array.mem_push.1 hm with hm | rfl
    · exact hp.slices m (Array.mem_toList_iff.2 hm) s hs
    · have hsome : (p.operandsOf? m.form).isSome = true := by rw [hn, Option.isSome_some]
      exact isSome_operandsOf?.1 hsome s hs
  · intro k hk j hj
    have hget : (p.add n).2.get? ⟨k⟩ = if k = p.size then some n else p.get? ⟨k⟩ := Array.getElem?_push
    rw [operands?, hget] at hj
    by_cases hlast : k = p.size
    · rw [if_pos hlast, Option.bind_some, hform, hn] at hj
      rw [hlast]
      exact his j hj
    · rw [if_neg hlast] at hj
      simp only [hform] at hj
      exact hp.operands k (by omega) j hj

/-- A list may be added, and is then found where it was put. -/
theorem addList (hp : p.Postordered) {s : Slice} {q : Pool} (h : p.addList? is = some (s, q)) :
    q.Postordered ∧ q.size = p.size ∧ q.slice? s = some is := by
  unfold addList? at h
  split at h
  · obtain ⟨rfl, rfl⟩ := Prod.mk.inj (Option.some.inj h)
    refine ⟨⟨?_, ?_⟩, rfl, ?_⟩
    · intro n hn t ht
      have hle := hp.slices n hn t ht
      rw [Array.size_append]
      omega
    · intro k hk j hj
      obtain ⟨js, hjs⟩ := hp.exists_operands (i := ⟨k⟩) hk
      obtain ⟨n, hn, hform⟩ := Option.bind_eq_some_iff.1 hjs
      have hgrown : operands? ⟨p.nodes, p.lists ++ is.toArray⟩ ⟨k⟩ = some js :=
        Option.bind_eq_some_iff.2 ⟨n, hn, operandsOf?_append hform _⟩
      rw [hgrown] at hj
      exact hp.index_lt hjs hj
    · simp [slice?, Array.extract_append]
  · cases h

end Postordered

end Pool

/-! ### Drafts -/

namespace Draft

variable {α β : Type} {d : Draft} {Q : α → Draft → Prop} {R : β → Draft → Prop}

/-- Started on a draft whose pool is in postorder, the step keeps it so, takes no node away and returns what `Q` asks
for, unless it fails. -/
def Builds (m : OptionT (StateM Draft) α) (d : Draft) (Q : α → Draft → Prop) : Prop :=
  d.pool.Postordered →
    (m d).2.pool.Postordered ∧ d.pool.size ≤ (m d).2.pool.size ∧ ∀ a, (m d).1 = some a → Q a (m d).2

theorem bind_apply (m : OptionT (StateM Draft) α) (k : α → OptionT (StateM Draft) β) (d : Draft) :
    (m >>= k) d = (m d).1.elim (none, (m d).2) fun a => k a (m d).2 := by
  show OptionT.bind m k d = _
  unfold OptionT.bind OptionT.mk
  show StateT.bind m _ d = _
  unfold StateT.bind
  rcases m d with ⟨_ | a, d'⟩ <;> rfl

namespace Builds

theorem pure {a : α} (h : Q a d) : Builds (Pure.pure a) d Q := by
  intro hd
  refine ⟨hd, Nat.le_refl _, ?_⟩
  rintro _ ⟨⟩
  exact h

theorem bind {m : OptionT (StateM Draft) α} {k : α → OptionT (StateM Draft) β} (hm : Builds m d Q)
    (hk : ∀ a d', d.pool.size ≤ d'.pool.size → Q a d' → Builds (k a) d' R) : Builds (m >>= k) d R := by
  intro hd
  obtain ⟨hpool, hgrows, hresult⟩ := hm hd
  rw [bind_apply]
  cases ha : (m d).1 with
  | none => exact ⟨hpool, hgrows, by simp⟩
  | some a =>
    obtain ⟨hpool', hgrows', hresult'⟩ := hk a (m d).2 hgrows (hresult a ha) hpool
    exact ⟨hpool', Nat.le_trans hgrows hgrows', hresult'⟩

/-- Adding a node whose operands are there already. -/
theorem add {form : Form} {is : List NodeId} (hform : d.pool.operandsOf? form = some is)
    (his : ∀ j ∈ is, j.index < d.pool.size) :
    Builds (Draft.add form : OptionT (StateM Draft) NodeId) d fun i d' => i.index < d'.pool.size := by
  intro hd
  have hsize : (d.pool.add ⟨form, spanAt d.pool.size⟩).2.size = d.pool.size + 1 := Array.size_push _
  refine ⟨hd.add hform his, ?_, ?_⟩
  · show d.pool.size ≤ (d.pool.add ⟨form, spanAt d.pool.size⟩).2.size
    omega
  · rintro _ ⟨⟩
    show d.pool.size < (d.pool.add ⟨form, spanAt d.pool.size⟩).2.size
    omega

theorem intern (s : String) :
    Builds (Draft.intern s : OptionT (StateM Draft) Symbol) d fun _ d' => d'.pool = d.pool := by
  intro hd
  exact ⟨hd, Nat.le_refl _, fun _ _ => rfl⟩

theorem addList (is : List NodeId) :
    Builds (Draft.addList is) d fun s d' => d'.pool.size = d.pool.size ∧ d'.pool.slice? s = some is := by
  intro hd
  unfold Draft.addList
  cases h : d.pool.addList? is with
  | none => exact ⟨hd, Nat.le_refl _, by simp⟩
  | some sq =>
    obtain ⟨hpool, hsize, hslice⟩ := hd.addList h
    refine ⟨hpool, Nat.le_of_eq hsize.symm, ?_⟩
    rintro _ ⟨⟩
    exact ⟨hsize, hslice⟩

end Builds

mutual

/-- An expression is placed after its operands. -/
theorem place_builds (e : Written) (d : Draft) : Builds (place e) d fun i d' => i.index < d'.pool.size :=
  match e with
  | .int _ | .bool _ | .null => .add rfl (by simp)
  | .str s => (Builds.intern s).bind fun _ _ _ _ => .add rfl (by simp)
  | .ident x => (Builds.intern x).bind fun _ _ _ _ => .add rfl (by simp)
  | .connective _ l r | .operator _ l r =>
    (place_builds l d).bind fun i d' _ hi => (place_builds r d').bind fun j d'' hgrows hj =>
      .add rfl (by simp; omega)
  | .not e | .neg e | .part e _ => (place_builds e d).bind fun i d' _ hi => .add rfl (by simpa using hi)
  | .test _ e x | .assign x e =>
    (place_builds e d).bind fun i d' _ hi => (Builds.intern x).bind fun _ d'' _ hpool =>
      .add rfl (by rw [hpool]; simpa using hi)
  | .row _ items =>
    (placeAll_builds items d).bind fun is d' _ his => (Builds.addList is).bind fun s d'' _ hs =>
      .add hs.2 (by rw [hs.1]; exact his)

/-- Expressions are placed one after the other. -/
theorem placeAll_builds (es : List Written) (d : Draft) :
    Builds (placeAll es) d fun is d' => ∀ i ∈ is, i.index < d'.pool.size :=
  match es with
  | [] => .pure (by simp)
  | e :: es =>
    (place_builds e d).bind fun i d' _ hi => (placeAll_builds es d').bind fun is d'' hgrows his =>
      .pure (by simpa using ⟨Nat.lt_of_lt_of_le hi hgrows, his⟩)

end

/-- Whatever is placed in a new draft, the pool is in postorder and has what was placed. -/
theorem placeAll_postordered (names : SymbolTable) (es : List Written) :
    (placeAll es (start names)).2.pool.Postordered ∧
    ∀ is, (placeAll es (start names)).1 = some is → ∀ i ∈ is, i.index < (placeAll es (start names)).2.pool.size := by
  obtain ⟨hpool, -, hresult⟩ := placeAll_builds es (start names) Pool.Postordered.empty
  exact ⟨hpool, hresult⟩

end Draft

end QueryPipeline
