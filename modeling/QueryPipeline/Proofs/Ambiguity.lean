import Mathlib
import QueryPipeline.Proofs.Rejections
import QueryPipeline.Proofs.Siblings

/-!
# Ambiguous names

Two tests of an expression may bind one name if only one of them can count: they stand on different sides of a `||`,
and give the name one type.  All other pairs of tests that bind one name are conflicts (`Term.Conflict`).

Clashes are collected from the bottom up, and of all the tests that bind a name below a node only one type is kept.
Still nothing is lost: if two types meet at a `||` unnoticed, one of them has met another type below.  So a name clashes
in an expression exactly if there is a conflict about it (`Term.clashes_declared`), and a chain has a flow exactly if it
has no conflict; otherwise each name in conflict is reported once for its clause (`Query.flow_fails_iff_conflict`).
-/

namespace QueryPipeline

/-! ### Places of a term -/

namespace Term

variable {t e : Term} {x : Symbol} {ty : Ty} {i j : Nat} {p q : List Nat}

/-- The node at a place.  A place says which operand to go to, from the root down. -/
def at? : Term → List Nat → Option Term
  | t, [] => some t
  | t, i :: place => (t.operands[i]?).bind fun e => e.at? place

/-- Whether the root is a `||`. -/
def isOr : Term → Bool
  | connective _ .or _ _ => true
  | _ => false

private theorem exists_of_isOr (h : t.isOr = true) : ∃ o l r, t = connective o .or l r := by
  cases t with
  | connective o c l r =>
    cases c with
    | and => cases h
    | or => exact ⟨o, l, r, rfl⟩
  | _ => cases h

/-- The ways to the two places part at a `||`.  This is the lowest node above both, and the two stand in different
operands of it. -/
def Alternative (t : Term) (p q : List Nat) : Prop :=
  ∃ s i j p' q' u, p = s ++ i :: p' ∧ q = s ++ j :: q' ∧ i ≠ j ∧ t.at? s = some u ∧ u.isOr = true

/-- At two places of the term there are tests that bind the name, and they are no alternatives, or they give the name
different types. -/
def Conflict (t : Term) (x : Symbol) : Prop :=
  ∃ p q u v, p ≠ q ∧ t.at? p = some u ∧ t.at? q = some v ∧ u.bound? = some x ∧ v.bound? = some x ∧
    (¬ t.Alternative p q ∨ u.boundTy ≠ v.boundTy)

/-- At some place of the term there is a test that binds the name and gives it the type. -/
def BindsAs (t : Term) (x : Symbol) (ty : Ty) : Prop :=
  ∃ p u, t.at? p = some u ∧ u.bound? = some x ∧ u.boundTy = ty

theorem at?_cons {u : Term} : t.at? (i :: p) = some u ↔ ∃ e, t.operands[i]? = some e ∧ e.at? p = some u := by
  rw [at?, Option.bind_eq_some_iff]

private theorem not_alternative_nil : ¬ t.Alternative [] q := by
  rintro ⟨s, i, j, p', q', u, hp, -⟩
  simp at hp

private theorem alternative_cons_self (he : t.operands[i]? = some e) :
    t.Alternative (i :: p) (i :: q) ↔ e.Alternative p q := by
  constructor
  · rintro ⟨s, a, b, p', q', u, hp, hq, hne, hu, hor⟩
    cases s with
    | nil =>
      have ha : i = a := (List.cons.inj hp).1
      have hb : i = b := (List.cons.inj hq).1
      exact absurd (ha.symm.trans hb) hne
    | cons k s =>
      obtain ⟨e', he', hu⟩ := at?_cons.1 hu
      rw [List.cons_append, List.cons.injEq] at hp hq
      obtain ⟨rfl, hp⟩ := hp
      obtain ⟨-, hq⟩ := hq
      obtain rfl := Option.mem_unique he he'
      exact ⟨s, a, b, p', q', u, hp, hq, hne, hu, hor⟩
  · rintro ⟨s, a, b, p', q', u, rfl, rfl, hne, hu, hor⟩
    exact ⟨i :: s, a, b, p', q', u, rfl, rfl, hne, at?_cons.2 ⟨e, he, hu⟩, hor⟩

private theorem alternative_cons_of_ne (hij : i ≠ j) : t.Alternative (i :: p) (j :: q) ↔ t.isOr = true := by
  constructor
  · rintro ⟨s, a, b, p', q', u, hp, hq, -, hu, hor⟩
    cases s with
    | nil =>
      obtain rfl : t = u := Option.some.inj hu
      exact hor
    | cons k s =>
      have hi : i = k := (List.cons.inj hp).1
      have hj : j = k := (List.cons.inj hq).1
      exact absurd (hi.trans hj.symm) hij
  · intro hor
    exact ⟨[], i, j, p, q, t, rfl, rfl, hij, rfl, hor⟩

/-! ### Conflicts, node by node -/

private theorem bindsAs_iff :
    t.BindsAs x ty ↔ (t.bound? = some x ∧ t.boundTy = ty) ∨ ∃ e ∈ t.operands, e.BindsAs x ty := by
  constructor
  · rintro ⟨p, u, hp, hu, hty⟩
    cases p with
    | nil =>
      obtain rfl : t = u := Option.some.inj hp
      exact Or.inl ⟨hu, hty⟩
    | cons i p =>
      obtain ⟨e, he, hp⟩ := at?_cons.1 hp
      exact Or.inr ⟨e, List.mem_of_getElem? he, p, u, hp, hu, hty⟩
  · rintro (⟨hx, hty⟩ | ⟨e, he, p, u, hp, hu, hty⟩)
    · exact ⟨[], t, rfl, hx, hty⟩
    · obtain ⟨i, hi⟩ := List.getElem?_of_mem he
      exact ⟨i :: p, u, at?_cons.2 ⟨e, hi, hp⟩, hu, hty⟩

/-- Two tests that give the name different types are in conflict wherever they stand. -/
private theorem conflict_of_types {ty' : Ty} (h : t.BindsAs x ty) (h' : t.BindsAs x ty') (hne : ty ≠ ty') :
    t.Conflict x := by
  obtain ⟨p, u, hp, hu, rfl⟩ := h
  obtain ⟨q, v, hq, hv, rfl⟩ := h'
  have hpq : p ≠ q := by
    rintro rfl
    obtain rfl := Option.mem_unique hp hq
    exact hne rfl
  exact ⟨p, q, u, v, hpq, hp, hq, hu, hv, Or.inr hne⟩

/-- A conflict lies within an operand, or between the root and an operand, or between two operands. -/
private theorem conflict_iff : t.Conflict x ↔ (∃ e ∈ t.operands, e.Conflict x) ∨
    (t.bound? = some x ∧ ∃ e ∈ t.operands, ∃ ty, e.BindsAs x ty) ∨
    ∃ (i j : Nat) (e e' : Term) (ty ty' : Ty), i ≠ j ∧ t.operands[i]? = some e ∧ t.operands[j]? = some e' ∧
      e.BindsAs x ty ∧ e'.BindsAs x ty' ∧ (t.isOr = false ∨ ty ≠ ty') := by
  constructor
  · rintro ⟨p, q, u, v, hne, hp, hq, hu, hv, h⟩
    cases p with
    | nil =>
      obtain rfl : t = u := Option.some.inj hp
      cases q with
      | nil => exact absurd rfl hne
      | cons j q =>
        obtain ⟨e, he, hq⟩ := at?_cons.1 hq
        exact Or.inr (Or.inl ⟨hu, e, List.mem_of_getElem? he, v.boundTy, q, v, hq, hv, rfl⟩)
    | cons i p =>
      obtain ⟨e, he, hp⟩ := at?_cons.1 hp
      cases q with
      | nil =>
        obtain rfl : t = v := Option.some.inj hq
        exact Or.inr (Or.inl ⟨hv, e, List.mem_of_getElem? he, u.boundTy, p, u, hp, hu, rfl⟩)
      | cons j q =>
        obtain ⟨e', he', hq⟩ := at?_cons.1 hq
        by_cases hij : i = j
        · subst hij
          obtain rfl := Option.mem_unique he he'
          have hpq : p ≠ q := fun heq => hne (by rw [heq])
          rw [alternative_cons_self he] at h
          exact Or.inl ⟨e, List.mem_of_getElem? he, p, q, u, v, hpq, hp, hq, hu, hv, h⟩
        · rw [alternative_cons_of_ne hij, Bool.not_eq_true] at h
          have hbinds : e.BindsAs x u.boundTy := ⟨p, u, hp, hu, rfl⟩
          have hbinds' : e'.BindsAs x v.boundTy := ⟨q, v, hq, hv, rfl⟩
          exact Or.inr (Or.inr ⟨i, j, e, e', _, _, hij, he, he', hbinds, hbinds', h⟩)
  · rintro (⟨e, he, p, q, u, v, hne, hp, hq, hu, hv, h⟩ | ⟨hx, e, he, ty, p, u, hp, hu, -⟩ |
      ⟨i, j, e, e', _, _, hij, he, he', ⟨p, u, hp, hu, rfl⟩, ⟨q, v, hq, hv, rfl⟩, h⟩)
    · obtain ⟨i, hi⟩ := List.getElem?_of_mem he
      have hcons : i :: p ≠ i :: q := fun heq => hne (List.cons.inj heq).2
      rw [← alternative_cons_self hi] at h
      exact ⟨i :: p, i :: q, u, v, hcons, at?_cons.2 ⟨e, hi, hp⟩, at?_cons.2 ⟨e, hi, hq⟩, hu, hv, h⟩
    · obtain ⟨i, hi⟩ := List.getElem?_of_mem he
      exact ⟨[], i :: p, t, u, by simp, rfl, at?_cons.2 ⟨e, hi, hp⟩, hx, hu, Or.inl not_alternative_nil⟩
    · have hcons : i :: p ≠ j :: q := fun heq => hij (List.cons.inj heq).1
      rw [← Bool.not_eq_true, ← alternative_cons_of_ne hij] at h
      exact ⟨i :: p, j :: q, u, v, hcons, at?_cons.2 ⟨e, he, hp⟩, at?_cons.2 ⟨e', he', hq⟩, hu, hv, h⟩

/-- Two different members of the list have the property. -/
def Twice (P : Term → Prop) (ts : List Term) : Prop :=
  ∃ (i j : Nat) (t u : Term), i ≠ j ∧ ts[i]? = some t ∧ ts[j]? = some u ∧ P t ∧ P u

private theorem twice_cons {P : Term → Prop} {ts : List Term} :
    Twice P (t :: ts) ↔ (P t ∧ ∃ u ∈ ts, P u) ∨ Twice P ts := by
  constructor
  · rintro ⟨i, j, u, v, hij, hu, hv, hPu, hPv⟩
    cases i with
    | zero =>
      obtain rfl : t = u := by simpa using hu
      cases j with
      | zero => exact absurd rfl hij
      | succ j => exact Or.inl ⟨hPu, v, List.mem_of_getElem? (by simpa using hv), hPv⟩
    | succ i =>
      have hu : ts[i]? = some u := by simpa using hu
      cases j with
      | zero =>
        obtain rfl : t = v := by simpa using hv
        exact Or.inl ⟨hPv, u, List.mem_of_getElem? hu, hPu⟩
      | succ j => exact Or.inr ⟨i, j, u, v, by omega, hu, by simpa using hv, hPu, hPv⟩
  · rintro (⟨hPt, u, hu, hPu⟩ | ⟨i, j, u, v, hij, hu, hv, hPu, hPv⟩)
    · obtain ⟨j, hj⟩ := List.getElem?_of_mem hu
      exact ⟨0, j + 1, t, u, by omega, by simp, by simpa using hj, hPt, hPu⟩
    · exact ⟨i + 1, j + 1, u, v, by omega, by simpa using hu, by simpa using hv, hPu, hPv⟩

private theorem conflict_of_not_or (h : t.isOr = false) :
    t.Conflict x ↔ (∃ e ∈ t.operands, e.Conflict x) ∨ (t.bound? = some x ∧ ∃ e ∈ t.operands, ∃ ty, e.BindsAs x ty) ∨
      Twice (fun e => ∃ ty, e.BindsAs x ty) t.operands := by
  rw [conflict_iff]
  refine or_congr_right (or_congr_right ?_)
  constructor
  · rintro ⟨i, j, e, e', ty, ty', hij, he, he', hty, hty', -⟩
    exact ⟨i, j, e, e', hij, he, he', ⟨ty, hty⟩, ⟨ty', hty'⟩⟩
  · rintro ⟨i, j, e, e', hij, he, he', ⟨ty, hty⟩, ⟨ty', hty'⟩⟩
    exact ⟨i, j, e, e', ty, ty', hij, he, he', hty, hty', Or.inl h⟩

private theorem conflict_or {o : Origin} {l r : Term} : (connective o .or l r).Conflict x ↔
    l.Conflict x ∨ r.Conflict x ∨ ∃ ty ty', l.BindsAs x ty ∧ r.BindsAs x ty' ∧ ty ≠ ty' := by
  have hpair : (∃ e ∈ (connective o .or l r).operands, e.Conflict x) ↔ l.Conflict x ∨ r.Conflict x := by
    simp [operands]
  rw [conflict_iff, hpair, or_assoc]
  refine or_congr_right (or_congr_right ?_)
  constructor
  · rintro (⟨hx, -⟩ | ⟨i, j, e, e', ty, ty', hij, he, he', hty, hty', h⟩)
    · cases hx
    · have hne : ty ≠ ty' := h.resolve_left (by simp [isOr])
      -- the two operands are `l` and `r`, in one order or the other
      rcases i with _ | _ | i <;> rcases j with _ | _ | j <;> simp [operands] at hij he he'
      · subst he he'
        exact ⟨ty, ty', hty, hty', hne⟩
      · subst he he'
        exact ⟨ty', ty, hty', hty, hne.symm⟩
  · rintro ⟨ty, ty', hty, hty', hne⟩
    exact Or.inr ⟨0, 1, l, r, ty, ty', by omega, rfl, rfl, hty, hty', Or.inr hne⟩

end Term

/-! ### Clashes, node by node -/

namespace Declared

variable {a b : Declared} {x : Symbol}

/-- The name is declared. -/
def Binds (a : Declared) (x : Symbol) : Prop := ∃ d ∈ a.names, d.name = x

/-- The name clashes. -/
def Clashes (a : Declared) (x : Symbol) : Prop := ∃ d ∈ a.clashes, d.name = x

private theorem isSome_find? : (a.find? x).isSome = true ↔ a.Binds x := by
  simp [find?, Binds]

private theorem exists_find? (h : a.Binds x) : ∃ d, a.find? x = some d := Option.isSome_iff_exists.1 (isSome_find?.2 h)

private theorem not_binds_none : ¬ Declared.none.Binds x := by
  simp [Binds, Declared.none]

private theorem not_clashes_none : ¬ Declared.none.Clashes x := by
  simp [Clashes, Declared.none]

private theorem none_also (b : Declared) : Declared.none.also b = b := by
  simp [also, Declared.none, find?]

private theorem also_none (a : Declared) : a.also .none = a := by
  simp [also, Declared.none]

private theorem binds_names : (∃ d ∈ a.names ++ b.names.filter (fun d => (a.find? d.name).isNone), d.name = x) ↔
    a.Binds x ∨ b.Binds x := by
  constructor
  · rintro ⟨d, hd, hx⟩
    rcases List.mem_append.1 hd with hd | hd
    · exact Or.inl ⟨d, hd, hx⟩
    · exact Or.inr ⟨d, (List.mem_filter.1 hd).1, hx⟩
  · intro h
    by_cases ha : a.Binds x
    · obtain ⟨d, hd, hx⟩ := ha
      exact ⟨d, List.mem_append_left _ hd, hx⟩
    · obtain ⟨d, hd, rfl⟩ := h.resolve_left ha
      have hnew : (a.find? d.name).isNone = true := by
        rw [← isSome_find?] at ha
        simpa using ha
      exact ⟨d, List.mem_append_right _ (List.mem_filter.2 ⟨hd, hnew⟩), rfl⟩

private theorem binds_also : (a.also b).Binds x ↔ a.Binds x ∨ b.Binds x := binds_names

private theorem binds_orElse : (a.orElse b).Binds x ↔ a.Binds x ∨ b.Binds x := binds_names

private theorem clashes_also : (a.also b).Clashes x ↔ a.Clashes x ∨ b.Clashes x ∨ (a.Binds x ∧ b.Binds x) := by
  constructor
  · rintro ⟨c, hc, rfl⟩
    rcases List.mem_append.1 hc with hc | hc
    · rcases List.mem_append.1 hc with hc | hc
      · exact Or.inl ⟨c, hc, rfl⟩
      · exact Or.inr (Or.inl ⟨c, hc, rfl⟩)
    · obtain ⟨d, hd, rfl⟩ := List.mem_map.1 hc
      obtain ⟨hd, hboth⟩ := List.mem_filter.1 hd
      exact Or.inr (Or.inr ⟨isSome_find?.1 hboth, d, hd, rfl⟩)
  · rintro (⟨c, hc, hx⟩ | ⟨c, hc, hx⟩ | ⟨ha, d, hd, rfl⟩)
    · exact ⟨c, List.mem_append_left _ (List.mem_append_left _ hc), hx⟩
    · exact ⟨c, List.mem_append_left _ (List.mem_append_right _ hc), hx⟩
    · refine ⟨⟨d.name, d.span, .samePath⟩, List.mem_append_right _ (List.mem_map.2 ⟨d, ?_, rfl⟩), rfl⟩
      exact List.mem_filter.2 ⟨hd, isSome_find?.2 ha⟩

private theorem clashes_orElse : (a.orElse b).Clashes x ↔ a.Clashes x ∨ b.Clashes x ∨
    ∃ e d, a.find? x = some e ∧ d ∈ b.names ∧ d.name = x ∧ e.ty ≠ d.ty := by
  constructor
  · rintro ⟨c, hc, rfl⟩
    rcases List.mem_append.1 hc with hc | hc
    · rcases List.mem_append.1 hc with hc | hc
      · exact Or.inl ⟨c, hc, rfl⟩
      · exact Or.inr (Or.inl ⟨c, hc, rfl⟩)
    · obtain ⟨d, hd, hclash⟩ := List.mem_filterMap.1 hc
      split at hclash
      · rename_i e he
        split at hclash
        · cases hclash
        · rename_i hne
          obtain rfl := Option.some.inj hclash
          exact Or.inr (Or.inr ⟨e, d, he, hd, rfl, hne⟩)
      · cases hclash
  · rintro (⟨c, hc, hx⟩ | ⟨c, hc, hx⟩ | ⟨e, d, he, hd, rfl, hne⟩)
    · exact ⟨c, List.mem_append_left _ (List.mem_append_left _ hc), hx⟩
    · exact ⟨c, List.mem_append_left _ (List.mem_append_right _ hc), hx⟩
    · refine ⟨⟨d.name, d.span, .types e.ty d.ty⟩, List.mem_append_right _ (List.mem_filterMap.2 ⟨d, hd, ?_⟩), rfl⟩
      rw [he]
      exact if_neg hne

end Declared

namespace Term

variable {t : Term} {x : Symbol}

/-- What the root itself declares. -/
def own (t : Term) : Declared :=
  match t.bound? with
  | some x => .one ⟨x, t.boundTy, t.span⟩
  | none => .none

private theorem binds_own : t.own.Binds x ↔ t.bound? = some x := by
  unfold own
  cases t.bound? <;> simp [Declared.Binds, Declared.one, Declared.none]

private theorem not_clashes_own : ¬ t.own.Clashes x := by
  unfold own
  cases t.bound? <;> simp [Declared.Clashes, Declared.one, Declared.none]

/-- All nodes but `||` treat what their operands declare as declared on one path, and the root's own name after it. -/
private theorem declared_of_not_or (h : t.isOr = false) : t.declared = (declaredAfter .none t.operands).also t.own := by
  cases t with
  | hole | literal | ident => rfl
  | connective o c l r =>
    cases c with
    | or => cases h
    | and => simp [declared, declaredAfter, operands, own, bound?, Declared.none_also, Declared.also_none]
  | operator | not | neg | assign | row | part =>
    simp [declared, declaredAfter, operands, own, bound?, Declared.none_also, Declared.also_none]
  | test o q e y =>
    by_cases hy : y.isPresent = true
    · simp [declared, declaredAfter, operands, own, bound?, hy, Declared.none_also, boundTy, span, origin]
    · simp [declared, declaredAfter, operands, own, bound?, hy, Declared.none_also, Declared.also_none]

private theorem mem_names_declaredAfter {sofar : Declared} {ts : List Term} {d : Declaration}
    (h : d ∈ (declaredAfter sofar ts).names) : d ∈ sofar.names ∨ ∃ t ∈ ts, d ∈ t.declared.names := by
  induction ts generalizing sofar with
  | nil => exact Or.inl h
  | cons t ts ih =>
    rcases ih h with h | ⟨u, hu, h⟩
    · rcases List.mem_append.1 h with h | h
      · exact Or.inl h
      · exact Or.inr ⟨t, by simp, (List.mem_filter.1 h).1⟩
    · exact Or.inr ⟨u, by simp [hu], h⟩

private theorem binds_declaredAfter {sofar : Declared} {ts : List Term} :
    (declaredAfter sofar ts).Binds x ↔ sofar.Binds x ∨ ∃ t ∈ ts, t.declared.Binds x := by
  induction ts generalizing sofar with
  | nil => simp [declaredAfter]
  | cons t ts ih =>
    rw [declaredAfter, ih, Declared.binds_also, or_assoc]
    simp

private theorem clashes_declaredAfter {sofar : Declared} {ts : List Term} :
    (declaredAfter sofar ts).Clashes x ↔ sofar.Clashes x ∨ (∃ t ∈ ts, t.declared.Clashes x) ∨
      (sofar.Binds x ∧ ∃ t ∈ ts, t.declared.Binds x) ∨ Twice (fun t => t.declared.Binds x) ts := by
  induction ts generalizing sofar with
  | nil => simp [declaredAfter, Twice]
  | cons t ts ih =>
    rw [declaredAfter, ih, Declared.clashes_also, Declared.binds_also, twice_cons]
    simp only [List.mem_cons, exists_eq_or_imp]
    rw [or_and_right, and_or_left]
    simp only [or_assoc, or_left_comm]

/-- What the term declares, some test in it binds. -/
private theorem bindsAs_of_mem_names {d : Declaration} (h : d ∈ t.declared.names) : t.BindsAs d.name d.ty := by
  induction t using operandInduction with
  | step t ih =>
    rw [bindsAs_iff]
    cases hor : t.isOr with
    | false =>
      rw [declared_of_not_or hor] at h
      rcases List.mem_append.1 h with h | h
      · rcases mem_names_declaredAfter h with h | ⟨e, he, h⟩
        · cases h
        · exact Or.inr ⟨e, he, ih e he h⟩
      · have hown : d ∈ t.own.names := (List.mem_filter.1 h).1
        unfold own at hown
        cases hx : t.bound? with
        | none =>
          rw [hx] at hown
          cases hown
        | some x =>
          rw [hx] at hown
          obtain rfl := List.mem_singleton.1 hown
          exact Or.inl ⟨rfl, rfl⟩
    | true =>
      obtain ⟨o, l, r, rfl⟩ := exists_of_isOr hor
      rcases List.mem_append.1 h with h | h
      · exact Or.inr ⟨l, by simp [operands], ih l (by simp [operands]) h⟩
      · exact Or.inr ⟨r, by simp [operands], ih r (by simp [operands]) (List.mem_filter.1 h).1⟩

private theorem binds_declared : t.declared.Binds x ↔ ∃ ty, t.BindsAs x ty := by
  constructor
  · rintro ⟨d, hd, rfl⟩
    exact ⟨d.ty, bindsAs_of_mem_names hd⟩
  · rintro ⟨ty, h⟩
    induction t using operandInduction with
    | step t ih =>
      cases hor : t.isOr with
      | false =>
        rw [declared_of_not_or hor, Declared.binds_also, binds_own, binds_declaredAfter]
        rcases bindsAs_iff.1 h with ⟨hx, -⟩ | ⟨e, he, h⟩
        · exact Or.inr hx
        · exact Or.inl (Or.inr ⟨e, he, ih e he h⟩)
      | true =>
        obtain ⟨o, l, r, rfl⟩ := exists_of_isOr hor
        rw [declared, Declared.binds_orElse]
        rcases bindsAs_iff.1 h with ⟨hx, -⟩ | ⟨e, he, h⟩
        · cases hx
        · have hbinds := ih e he h
          rcases List.mem_pair.1 he with rfl | rfl
          · exact Or.inl hbinds
          · exact Or.inr hbinds

/-- Types that meet at a `||`: if the types that are kept on the two sides agree, two other types that differ are in
conflict on one side already. -/
private theorem conflict_or_kept {o : Origin} {l r : Term} : (connective o .or l r).Conflict x ↔ l.Conflict x ∨
    r.Conflict x ∨ ∃ e d, l.declared.find? x = some e ∧ d ∈ r.declared.names ∧ d.name = x ∧ e.ty ≠ d.ty := by
  rw [conflict_or]
  constructor
  · rintro (h | h | ⟨ty, ty', hl, hr, hne⟩)
    · exact Or.inl h
    · exact Or.inr (Or.inl h)
    · obtain ⟨e, he⟩ := Declared.exists_find? (binds_declared.2 ⟨ty, hl⟩)
      obtain ⟨d, hd, hname⟩ := binds_declared.2 ⟨ty', hr⟩
      obtain ⟨hmem, hename⟩ := Declared.mem_of_find? he
      have hle : l.BindsAs x e.ty := hename ▸ bindsAs_of_mem_names hmem
      have hrd : r.BindsAs x d.ty := hname ▸ bindsAs_of_mem_names hd
      by_cases hkept : e.ty = d.ty
      · by_cases hty : ty = e.ty
        · have hother : ty' ≠ d.ty := fun heq => hne (by rw [hty, heq, hkept])
          exact Or.inr (Or.inl (conflict_of_types hr hrd hother))
        · exact Or.inl (conflict_of_types hl hle hty)
      · exact Or.inr (Or.inr ⟨e, d, he, hd, hname, hkept⟩)
  · rintro (h | h | ⟨e, d, he, hd, rfl, hne⟩)
    · exact Or.inl h
    · exact Or.inr (Or.inl h)
    · obtain ⟨hmem, hename⟩ := Declared.mem_of_find? he
      have hle : l.BindsAs d.name e.ty := hename ▸ bindsAs_of_mem_names hmem
      exact Or.inr (Or.inr ⟨e.ty, d.ty, hle, bindsAs_of_mem_names hd, hne⟩)

/-- A name clashes in a term exactly if there is a conflict about it. -/
theorem clashes_declared : t.declared.Clashes x ↔ t.Conflict x := by
  induction t using operandInduction with
  | step t ih =>
    cases hor : t.isOr with
    | true =>
      obtain ⟨o, l, r, rfl⟩ := exists_of_isOr hor
      have hl := ih l (by simp [operands])
      have hr := ih r (by simp [operands])
      rw [declared, Declared.clashes_orElse, conflict_or_kept, hl, hr]
    | false =>
      have hwithin : (∃ e ∈ t.operands, e.declared.Clashes x) ↔ ∃ e ∈ t.operands, e.Conflict x :=
        exists_congr fun e => and_congr_right fun he => ih e he
      rw [declared_of_not_or hor, Declared.clashes_also, clashes_declaredAfter, binds_declaredAfter, binds_own,
        conflict_of_not_or hor, hwithin]
      simp only [binds_declared, Declared.not_clashes_none, Declared.not_binds_none, not_clashes_own, false_or,
        false_and, and_comm, or_comm, or_assoc]

end Term

/-! ### What is reported -/

private theorem Rejection.insert_perm (r : Rejection) (rs : List Rejection) :
    (Rejection.insert r rs).Perm (r :: rs) := by
  induction rs with
  | nil => exact .refl _
  | cons a rs ih =>
    unfold Rejection.insert
    split
    · exact .refl _
    · exact (ih.cons a).trans (.swap r a rs)

private theorem Rejection.sort_perm (rs : List Rejection) : (Rejection.sort rs).Perm rs := by
  induction rs with
  | nil => exact .refl _
  | cons r rs ih => exact (Rejection.insert_perm r _).trans (ih.cons r)

/-- The names that clash in the clauses from place `index` on, each with its clause. -/
def clashingFrom : Nat → List Link → List (Nat × Symbol)
  | _, [] => []
  | index, l :: rest => (l.term.clashes.map fun d => (index, d.name)) ++ clashingFrom (index + 1) rest

private theorem ambiguitiesFrom_map (names : SymbolTable) (index : Nat) (links : List Link) :
    (ambiguitiesFrom names index links).map (fun y => (y.clause, y.cause.code, y.cause.subject?)) =
      (clashingFrom index links).map fun p => (p.1, ErrorCode.ambiguous, some (names.spelling p.2)) := by
  induction links generalizing index with
  | nil => rfl
  | cons l links ih =>
    rw [ambiguitiesFrom, clashingFrom, List.map_append, List.map_append, ih, List.map_map, List.map_map]
    rfl

private theorem mem_clashingFrom {index k : Nat} {links : List Link} {x : Symbol} :
    (k, x) ∈ clashingFrom index links ↔ ∃ i l, k = index + i ∧ links[i]? = some l ∧ l.term.Conflict x := by
  induction links generalizing index with
  | nil => simp [clashingFrom]
  | cons l links ih =>
    have hhere : (k, x) ∈ (l.term.clashes.map fun d => (index, d.name)) ↔ k = index ∧ l.term.Conflict x := by
      rw [← Term.clashes_declared, Term.clashes, List.mem_map]
      constructor
      · rintro ⟨d, hd, heq⟩
        obtain ⟨rfl, rfl⟩ := Prod.mk.inj heq
        exact ⟨rfl, d, Symbol.mem_of_mem_firstOfEach hd, rfl⟩
      · rintro ⟨rfl, d, hd, rfl⟩
        obtain ⟨d', hd', hname⟩ := Symbol.exists_mem_firstOfEach Clash.name hd
        exact ⟨d', hd', by rw [hname]⟩
    rw [clashingFrom, List.mem_append, hhere, ih]
    constructor
    · rintro (⟨rfl, h⟩ | ⟨i, l', rfl, hl', h⟩)
      · exact ⟨0, l, rfl, rfl, h⟩
      · exact ⟨i + 1, l', by omega, by simpa using hl', h⟩
    · rintro ⟨i, l', rfl, hl', h⟩
      cases i with
      | zero =>
        obtain rfl : l = l' := by simpa using hl'
        exact Or.inl ⟨rfl, h⟩
      | succ i => exact Or.inr ⟨i, l', by omega, by simpa using hl', h⟩

private theorem clashingFrom_nodup (index : Nat) (links : List Link) : (clashingFrom index links).Nodup := by
  induction links generalizing index with
  | nil => exact List.nodup_nil
  | cons l links ih =>
    refine List.Nodup.append ?_ (ih (index + 1)) ?_
    · have hnames : (l.term.clashes.map Clash.name).Nodup := Symbol.firstOfEach_nodup Clash.name _
      have hpairs := hnames.map (f := fun x => (index, x)) fun x y h => (Prod.mk.inj h).2
      rwa [List.map_map] at hpairs
    · -- what comes later has a later clause
      rintro ⟨k, x⟩ hhere hlater
      obtain ⟨d, -, heq⟩ := List.mem_map.1 hhere
      have hk : index = k := (Prod.mk.inj heq).1
      obtain ⟨i, l', hi, -⟩ := mem_clashingFrom.1 hlater
      omega

namespace Chain

variable {c : Chain} {names : SymbolTable}

/-- Tests of the clause at place `k` are in conflict about the name. -/
def Ambiguous (c : Chain) (k : Nat) (x : Symbol) : Prop :=
  ∃ l, c.links[k]? = some l ∧ (c.pool.unfold l.expr).Conflict x

private theorem flow_eq_error {e : Failure Report} :
    c.flow names = .error e ↔ ∃ r, e = .error r ∧ r.toList = c.ambiguities names := by
  rw [← Report.check_eq_error, flow]
  constructor
  · intro h
    rcases Except.bind_eq_error.1 h with h | ⟨_, -, h⟩
    · exact h
    · cases h
  · intro h
    exact Except.bind_eq_error.2 (Or.inl h)

private theorem ambiguities_perm (c : Chain) (names : SymbolTable) :
    ((c.ambiguities names).map fun y => (y.clause, y.cause.code, y.cause.subject?)).Perm
      ((clashingFrom 0 c.links).map fun p => (p.1, ErrorCode.ambiguous, some (names.spelling p.2))) := by
  rw [← ambiguitiesFrom_map]
  exact (Rejection.sort_perm _).map _

end Chain

private theorem Query.mem_clashing {q : Query} {c : Chain} (h : q.chain = .ok c) {k : Nat} {x : Symbol} :
    (k, x) ∈ clashingFrom 0 c.links ↔ c.Ambiguous k x := by
  have hterm : ∀ l, c.links[k]? = some l → c.pool.unfold l.expr = l.term := by
    intro l hl
    obtain ⟨before, rest, hat, -⟩ := Chain.exists_at hl
    obtain ⟨cl, -, hof⟩ := chain_link h hat
    rw [hof.expr]
    exact (Pool.term?_eq_some.1 hof.term).2
  rw [mem_clashingFrom]
  constructor
  · rintro ⟨i, l, hi, hl, hx⟩
    obtain rfl : k = i := by omega
    exact ⟨l, hl, by rwa [hterm l hl]⟩
  · rintro ⟨l, hl, hx⟩
    exact ⟨k, l, by omega, hl, by rwa [hterm l hl] at hx⟩

/-- A chain has no flow exactly if two tests of a clause's expression are in conflict about a name.  Then the report
has exactly one rejection for each clause and name with a conflict. -/
theorem Query.flow_fails_iff_conflict {q : Query} {c : Chain} (h : q.chain = .ok c) (names : SymbolTable) :
    ((∃ e, c.flow names = .error e) ↔ ∃ k x, c.Ambiguous k x) ∧
    ∀ e, c.flow names = .error e → ∃ (r : Report) (pairs : List (Nat × Symbol)), e = .error r ∧ pairs.Nodup ∧
      (∀ k x, (k, x) ∈ pairs ↔ c.Ambiguous k x) ∧
      (r.toList.map fun y => (y.clause, y.cause.code, y.cause.subject?)).Perm
        (pairs.map fun p => (p.1, ErrorCode.ambiguous, some (names.spelling p.2))) := by
  have hreport := c.ambiguities_perm names
  refine ⟨⟨?_, ?_⟩, ?_⟩
  · rintro ⟨e, he⟩
    obtain ⟨r, rfl, hr⟩ := Chain.flow_eq_error.1 he
    rw [← hr] at hreport
    obtain ⟨⟨k, x⟩, hp, -⟩ := List.mem_map.1 (hreport.subset (List.mem_map_of_mem (List.mem_cons_self ..)))
    exact ⟨k, x, (mem_clashing h).1 hp⟩
  · rintro ⟨k, x, hx⟩
    have hp := hreport.symm.subset (List.mem_map_of_mem ((mem_clashing h).2 hx))
    obtain ⟨y, hy, -⟩ := List.mem_map.1 hp
    obtain ⟨r, hr⟩ := Report.exists_toList (List.ne_nil_of_mem hy)
    exact ⟨.error r, Chain.flow_eq_error.2 ⟨r, rfl, hr⟩⟩
  · intro e he
    obtain ⟨r, rfl, hr⟩ := Chain.flow_eq_error.1 he
    refine ⟨r, clashingFrom 0 c.links, rfl, clashingFrom_nodup 0 c.links, fun k x => mem_clashing h, ?_⟩
    rw [hr]
    exact hreport

/-- Two names that are bound on both sides of a `||`, the first with two types, and the second at both places by one
node: `from x in [7] where (x is int i || (x is int i || x is string i)) && (x is int j || x is int j) select x`. -/
def Query.retyped : Query where
  pool :=
    { nodes := #[⟨.literal (.int 7), ⟨0, 1⟩⟩, ⟨.row .list ⟨0, 1⟩, ⟨2, 3⟩⟩, ⟨.ident ⟨1⟩, ⟨4, 5⟩⟩,
        ⟨.test (.hasType .int) ⟨2⟩ ⟨2⟩, ⟨6, 7⟩⟩, ⟨.test (.hasType .int) ⟨2⟩ ⟨2⟩, ⟨8, 9⟩⟩,
        ⟨.test (.hasType .str) ⟨2⟩ ⟨2⟩, ⟨10, 11⟩⟩, ⟨.connective .or ⟨4⟩ ⟨5⟩, ⟨12, 13⟩⟩,
        ⟨.connective .or ⟨3⟩ ⟨6⟩, ⟨14, 15⟩⟩, ⟨.test (.hasType .int) ⟨2⟩ ⟨3⟩, ⟨16, 17⟩⟩,
        ⟨.connective .or ⟨8⟩ ⟨8⟩, ⟨18, 19⟩⟩, ⟨.connective .and ⟨7⟩ ⟨9⟩, ⟨20, 21⟩⟩]
      lists := #[⟨0⟩] }
  clauses :=
    [⟨.source, ⟨1⟩, .one ⟨1⟩, .object, ⟨0, 1⟩⟩, ⟨.filter, ⟨10⟩, .none, .bool, ⟨0, 1⟩⟩,
      ⟨.select, ⟨2⟩, .none, .object, ⟨0, 1⟩⟩]

/-- The spellings of its names. -/
def Query.retypedNames : SymbolTable := ⟨#["", "x", "i", "j"]⟩

/-- Only `i` is ambiguous. -/
theorem Query.retyped_conflict : ∃ c, Query.retyped.chain = .ok c ∧
    (∃ x, Query.retypedNames.spelling x = "i" ∧ c.Ambiguous 1 x) ∧
    ∀ k x, c.Ambiguous k x → k = 1 ∧ Query.retypedNames.spelling x = "i" := by
  obtain ⟨c, hc⟩ : ∃ c, Query.retyped.chain = .ok c := ⟨_, rfl⟩
  have hflow : Query.retyped.chain.toOption.map (fun c => c.flow Query.retypedNames) = some (.error (.error
      (.one ⟨1, ⟨10, 11⟩, .ambiguous "i" "declared as `int` and `str` in alternative branches"⟩))) := by cbv
  rw [hc] at hflow
  obtain ⟨r, pairs, hr, -, hpairs, hreport⟩ :=
    (Query.flow_fails_iff_conflict hc Query.retypedNames).2 _ (Option.some.inj hflow)
  obtain rfl := Failure.error.inj hr
  refine ⟨c, hc, ?_, fun k x hx => ?_⟩
  · obtain ⟨⟨k, x⟩, hp, heq⟩ := List.mem_map.1 (hreport.subset (List.mem_cons_self ..))
    simp only [Prod.mk.injEq] at heq
    obtain ⟨rfl, -, hx⟩ := heq
    exact ⟨x, Option.some.inj hx, (hpairs 1 x).1 hp⟩
  · have hp := hreport.symm.subset (List.mem_map_of_mem ((hpairs k x).2 hx))
    have heq := List.mem_singleton.1 hp
    simp only [Prod.mk.injEq] at heq
    exact ⟨heq.1, Option.some.inj heq.2.2⟩

end QueryPipeline
