import QueryPipeline.Proofs.NestedLoop

/-!
# What carriers show of an environment

The value between two stages shows an environment of the nested loops: taken apart, it gives the environment's values
of all variables that are still to be used (`Chain.Shows`).  What a clause packs for the next stage shows the
environment that the clause leaves (`Chain.Placed.pack_shows`).

A filter that hands on nothing but one variable of its own, of a type without null, uses null as the mark of failure,
and so turns down an element for which it has assigned null to that variable (`Chain.Placed.vetoesNull_iff`).
-/

namespace QueryPipeline

namespace Chain

variable {c : Chain} {f : Flow} {names : SymbolTable} {policy : ScopePolicy}
variable {before rest : List Link} {l : Link} {C : Carrier} {locals : Store} {env : Env}

/-! ### What comes in -/

/-- The variables that come in have the values of the environment, which has values of earlier clauses only. -/
structure Shows (before : List Link) (C : Carrier) (locals : Store) (env : Env) : Prop where
  only : HoldsOnly C locals
  same : ∀ fd ∈ C.fields, locals.get? fd.name = env fd.binding
  known : ∀ b, env b ≠ none → Introduces before b

theorem Shows.mirrors (hs : Shows before C locals env) (h : c.Placed f names policy before l rest C) :
    c.Mirrors before l C locals env where
  carried fd hfd := by
    obtain ⟨v, hv⟩ := Store.contains_iff.1 ((hs.only fd.name).2 ⟨fd, hfd, rfl⟩)
    exact ⟨v, hv, by rw [← hs.same fd hfd, hv]⟩
  own b hb bd hbd := by
    have hid : b ∈ l.ids := List.mem_append_right _ hb
    -- the clause has not begun, so neither side has a value
    have henv : env b = none := Classical.byContradiction fun hne => by
      obtain ⟨l', hl', hid'⟩ := hs.known b hne
      have hlt := h.place.clause_lt h.rules.formed hl' hid' hbd
      obtain ⟨bd', hbd', hclause, -⟩ := h.place.id h.rules.formed hid
      obtain rfl := Option.mem_unique hbd hbd'
      omega
    rw [henv]
    exact h.own_free hs.only hid hbd
  others x _ hfields _ := by
    refine Store.contains_eq_false.1 (Bool.eq_false_iff.2 fun hheld => ?_)
    obtain ⟨fd, hfd, hname⟩ := (hs.only x).1 hheld
    exact hfields fd hfd hname
  known b hb := by
    obtain ⟨l', hl', hid⟩ := hs.known b hb
    exact ⟨l', List.mem_cons_of_mem _ hl', hid⟩

/-! ### What goes out -/

theorem leave_eq {b : BindingId} {bd : Binding} (hbd : c.binding? b = some bd) (hlast : c.Lasts policy bd) :
    c.leave l env b = env b := by
  simp [leave, hbd, hlast.outlives]

private theorem leave_ne_none {b : BindingId} (h : c.leave l env b ≠ none) : env b ≠ none := by
  intro hnone
  unfold leave at h
  split at h
  · exact h rfl
  · exact h hnone

theorem addTo_get? {b : BindingId} {v : Value} {fd : Field} (hnodup : (C.fields.map Field.binding).Nodup)
    (hnames : ∀ fd ∈ C.fields, ∀ fd' ∈ C.fields, fd.name = fd'.name → fd.binding = fd'.binding) (hfd : fd ∈ C.fields)
    (hsame : fd.binding ≠ b → locals.get? fd.name = env fd.binding) :
    (C.addTo locals b v).get? fd.name = env.set b v fd.binding := by
  unfold Carrier.addTo Env.set
  by_cases heq : fd.binding = b
  · subst heq
    rw [Carrier.find?_eq hnodup hfd, if_pos rfl]
    simp [Store.get?_insert]
  · rw [if_neg heq, ← hsame heq]
    cases hfind : C.find? b with
    | none => rfl
    | some fd' =>
      obtain ⟨hfd', hb⟩ := And.intro (List.mem_of_find?_eq_some hfind) (List.find?_some hfind)
      have hne : fd'.name ≠ fd.name := fun hname =>
        heq (by rw [← hnames fd' hfd' fd hfd hname]; simpa using hb)
      simp [Store.get?_insert, hne]

namespace Placed

variable {locals' : Store} {env' : Env}

theorem planned_names (h : c.Placed f names policy before l rest C) :
    ∀ fd ∈ (c.planned before l rest).fields, ∀ fd' ∈ (c.planned before l rest).fields,
      fd.name = fd'.name → fd.binding = fd'.binding := by
  intro fd hfd fd' hfd' hname
  exact (h.rules.carries_planned h.place).eq_of_name_eq h.rules h.place.links_cons hfd hfd' hname

/-- After the clause's expression, the environment has the values of all variables that are planned next, but for the
range variables of the clause. -/
theorem planned_same (h : c.Placed f names policy before l rest C) (hm : c.Mirrors before l C locals env) {fd : Field}
    (hfd : fd ∈ (c.planned before l rest).fields) (hrange : fd.binding ∉ l.ranges.ids) :
    locals.get? fd.name = c.leave l env fd.binding := by
  obtain ⟨-, bd, hbd, hname, -, hlast⟩ := (h.rules.carries_planned h.place).sound fd hfd
  obtain ⟨⟨l', hl', hid⟩, hread, -⟩ := (h.rules.mem_planned h.place).1 hfd
  rw [leave_eq hbd hlast]
  rcases List.mem_cons.1 hl' with rfl | hl'
  · rw [hname]
    exact hm.own _ ((List.mem_append.1 hid).resolve_left hrange) bd hbd
  · -- it came in, under the same name
    obtain ⟨fd', hfd', heq, hname'⟩ := h.carries.exists_field (readIn_cons.2 (Or.inr hread)) ⟨l', hl', hid⟩ hbd
    obtain ⟨v, hlocal, henv⟩ := hm.carried fd' hfd'
    rw [hname, ← hname', hlocal, ← heq, henv]

theorem leave_known (hm : c.Mirrors before l C locals env) (b : BindingId) (hb : c.leave l env b ≠ none) :
    Introduces (l :: before) b :=
  hm.known b (leave_ne_none hb)

theorem set_known {b : BindingId} {v : Value} (hb : b ∈ l.ids)
    (hknown : ∀ a, env a ≠ none → Introduces (l :: before) a) (a : BindingId) (ha : env.set b v a ≠ none) :
    Introduces (l :: before) a := by
  by_cases heq : a = b
  · subst heq
    exact ⟨l, by simp, hb⟩
  · rw [Env.set, if_neg heq] at ha
    exact hknown a ha

/-- The carrier that is made next shows the environment. -/
theorem pack_shows (h : c.Placed f names policy before l rest C)
    (hheld : ∀ fd ∈ (c.planned before l rest).fields, locals.contains fd.name = true)
    (hsame : ∀ fd ∈ (c.planned before l rest).fields, locals.get? fd.name = env fd.binding)
    (hknown : ∀ b, env b ≠ none → Introduces (l :: before) b) :
    ∃ u locals', (c.planned before l rest).pack names locals = .ok u ∧
      (c.planned before l rest).unpack? u = some locals' ∧
      Shows (l :: before) (c.planned before l rest) locals' env := by
  obtain ⟨u, hu⟩ := Carrier.pack_isOk names hheld
  have hnodup := (h.rules.carries_planned h.place).names_nodup h.rules h.place.links_cons
  obtain ⟨locals', hunpack, hget⟩ := Carrier.unpack?_get? hnodup hu
  refine ⟨u, locals', hu, hunpack, fun x => Carrier.unpack?_contains hunpack, fun fd hfd => ?_, hknown⟩
  rw [hget fd hfd, hsame fd hfd]

private theorem isUsed_eq (h : c.Placed f names policy before l rest C) {b : BindingId} (hb : b ∈ l.ids) :
    c.isUsed (l :: before) rest b = (c.planned before l rest).contains b := by
  rw [Bool.eq_iff_iff, h.rules.planned_contains h.place]
  unfold isUsed
  rw [List.contains_iff_mem]
  exact ⟨fun hread => ⟨⟨l, by simp, hb⟩, hread⟩, fun hread => hread.2⟩

/-- Taking out the planned parts fails just as storing all parts does, and otherwise gives the same values. -/
theorem extract_setParts (h : c.Placed f names policy before l rest C) (composite : Value)
    {parts : List (BindingId × Nat)} (hids : ∀ q ∈ parts, q.1 ∈ l.ids)
    (hsame : ∀ fd ∈ (c.planned before l rest).fields, (∀ q ∈ parts, q.1 ≠ fd.binding) →
      locals.get? fd.name = env fd.binding)
    (hknown : ∀ b, env b ≠ none → Introduces (l :: before) b) :
    (∃ fault, (c.planned before l rest).extract composite locals
          (parts.filter fun q => (c.planned before l rest).contains q.1) = .error fault ∧
        env.setParts composite (c.isUsed (l :: before) rest) parts = .error fault) ∨
      ∃ locals' env', (c.planned before l rest).extract composite locals
          (parts.filter fun q => (c.planned before l rest).contains q.1) = .ok locals' ∧
        env.setParts composite (c.isUsed (l :: before) rest) parts = .ok env' ∧
        (∀ fd ∈ (c.planned before l rest).fields, locals'.get? fd.name = env' fd.binding) ∧
        ∀ b, env' b ≠ none → Introduces (l :: before) b := by
  induction parts generalizing locals env with
  | nil =>
    refine Or.inr ⟨locals, env, rfl, rfl, fun fd hfd => hsame fd hfd ?_, hknown⟩
    intro q hq
    cases hq
  | cons q parts ih =>
    obtain ⟨b, position⟩ := q
    have hb : b ∈ l.ids := hids (b, position) (by simp)
    have hids' : ∀ q ∈ parts, q.1 ∈ l.ids := fun q hq => hids q (List.mem_cons_of_mem _ hq)
    have hnodup := (h.rules.carries_planned h.place).nodup
    rw [Env.setParts, h.isUsed_eq hb]
    cases hpart : composite.part position with
    | ok v =>
      -- whether or not the part is planned, the environment gets it
      have hset : ∀ fd ∈ (c.planned before l rest).fields, (∀ q ∈ parts, q.1 ≠ fd.binding) →
          ((c.planned before l rest).addTo locals b v).get? fd.name = env.set b v fd.binding := by
        intro fd hfd hlater
        refine addTo_get? hnodup h.planned_names hfd fun hne => hsame fd hfd fun q hq => ?_
        rcases List.mem_cons.1 hq with rfl | hq
        · exact fun heq => hne heq.symm
        · exact hlater q hq
      cases hcontains : (c.planned before l rest).contains b with
      | true =>
        rw [List.filter_cons_of_pos (by exact hcontains), Carrier.extract, hpart]
        exact ih hids' hset (set_known hb hknown)
      | false =>
        rw [List.filter_cons_of_neg (by simp [hcontains])]
        refine ih hids' (fun fd hfd hlater => ?_) (set_known hb hknown)
        have hnone : (c.planned before l rest).addTo locals b v = locals := by
          unfold Carrier.addTo
          cases hfind : (c.planned before l rest).find? b with
          | none => rfl
          | some fd' =>
            have : (c.planned before l rest).contains b = true :=
              Carrier.contains_iff.2 ⟨fd', List.mem_of_find?_eq_some hfind, by simpa using List.find?_some hfind⟩
            rw [hcontains] at this
            cases this
        rw [← hset fd hfd hlater, hnone]
    | error fault =>
      cases hcontains : (c.planned before l rest).contains b with
      | true =>
        rw [List.filter_cons_of_pos (by exact hcontains), Carrier.extract, hpart]
        exact Or.inl ⟨fault, rfl, rfl⟩
      | false =>
        rw [List.filter_cons_of_neg (by simp [hcontains])]
        refine ih hids' (fun fd hfd hlater => hsame fd hfd fun q hq => ?_) hknown
        rcases List.mem_cons.1 hq with rfl | hq
        · rintro rfl
          rw [Carrier.contains_iff.2 ⟨fd, hfd, rfl⟩] at hcontains
          cases hcontains
        · exact hlater q hq

end Placed

/-! ### Null as the mark of failure -/

private theorem carrierOf_bindings {k : Nat} {ids : List BindingId}
    (h : ∀ id ∈ ids, ∃ bd, c.binding? id = some bd) : (c.carrierOf k ids).fields.map Field.binding = ids := by
  unfold carrierOf
  induction ids with
  | nil => rfl
  | cons id ids ih =>
    obtain ⟨bd, hbd⟩ := h id (by simp)
    simpa [hbd] using ih fun id' hid => h id' (List.mem_cons_of_mem _ hid)

/-- What a clause hands on is what is planned after it. -/
theorem KeepsRules.handedOn_eq (h : c.KeepsRules f names policy) (hat : c.At before l rest) :
    c.handedOn before l rest = (c.planned before l rest).fields.map Field.binding := by
  have hlinks := hat.links_cons
  unfold handedOn planned minimalCarrier
  rw [carrierOf_bindings]
  · refine List.filter_congr fun b hb => ?_
    obtain ⟨⟨before', l', rest', hat', hid⟩, bd, hbd, -⟩ := h.readIn hlinks hb
    rw [Bool.eq_iff_iff, List.any_eq_true, hbd]
    simp only [List.contains_iff_mem, Option.any_some, decide_eq_true_eq]
    constructor
    · intro hint
      obtain ⟨bd', hbd', hle⟩ := hat.clause_le_of_introduces h.formed hint
      obtain rfl := Option.mem_unique hbd hbd'
      exact hle
    · intro hle
      exact hat.introduces_of_clause_le h.formed hat' hid hbd hle
  · intro b hb
    obtain ⟨-, bd, hbd, -⟩ := h.readIn hlinks (List.mem_filter.1 hb).1
    exact ⟨bd, hbd⟩

namespace Placed

/-- A filter none of whose variables is used later turns nothing down. -/
theorem vetoesNull_of_unused (hnone : ∀ b ∈ l.ids, ¬ c.ReadIn (l :: before) rest b) :
    c.vetoesNull before l rest env = false := by
  unfold vetoesNull
  split
  · rename_i b hhanded
    have hread : c.ReadIn (l :: before) rest b := by
      have hmem : b ∈ c.handedOn before l rest := by rw [hhanded]; simp
      exact (List.mem_filter.1 hmem).1
    have hown : l.patterns.ids.contains b = false :=
      Bool.eq_false_iff.2 fun hb => hnone b (List.mem_append_right _ (List.contains_iff_mem.1 hb)) hread
    rw [hown, Bool.false_and, Bool.false_and]
  · rfl

/-- What a filter turns down is what its outcome cannot tell from a failure. -/
theorem vetoesNull_iff (h : c.Placed f names policy before l rest C) (hm : c.Mirrors before l C locals env)
    (hk : l.kind = .filter) (hsome : ∃ b ∈ l.patterns.ids, c.ReadIn (l :: before) rest b) {u : Value}
    (hu : (c.planned before l rest).pack names locals = .ok u) :
    c.vetoesNull before l rest env = true ↔ (c.planned before l rest).encoding = .elided ∧ u = .null := by
  obtain ⟨vs, hvs, rfl⟩ := Carrier.pack_eq_ok.1 hu
  unfold vetoesNull Carrier.encoding
  rw [h.rules.handedOn_eq h.place]
  cases hfields : (c.planned before l rest).fields with
  | nil =>
    rw [hfields] at hvs
    obtain rfl := List.map_eq_nil_iff.1 hvs.symm
    simp [Value.pack]
  | cons fd more =>
    cases more with
    | cons fd' more =>
      rw [hfields] at hvs
      obtain ⟨v, v', vs', rfl⟩ : ∃ v v' vs', vs = v :: v' :: vs' := by
        rcases vs with _ | ⟨v, _ | ⟨v', vs⟩⟩ <;> simp at hvs ⊢
      simp [Value.pack]
    | nil =>
      -- the one variable handed on is the clause's own, and has the value that is packed
      have hfd : fd ∈ (c.planned before l rest).fields := by rw [hfields]; simp
      obtain ⟨b, hb, hread⟩ := hsome
      obtain ⟨fd', hfd', hbinding⟩ := Carrier.contains_iff.1
        ((h.rules.planned_contains h.place).2 ⟨⟨l, by simp, List.mem_append_right _ hb⟩, hread⟩)
      rw [hfields, List.mem_singleton] at hfd'
      subst hfd'
      obtain ⟨-, bd, hbd, -, hty, hlast⟩ := (h.rules.carries_planned h.place).sound fd' hfd
      have hsame := h.planned_same hm hfd (by rw [h.place.ranges_none h.rules.formed hk]; simp)
      rw [leave_eq hbd hlast] at hsame
      rw [hfields] at hvs
      obtain ⟨v, rfl⟩ : ∃ v, vs = [v] := by
        rcases vs with _ | ⟨v, _ | ⟨v', vs⟩⟩ <;> simp at hvs ⊢
      have hvalue : locals.get? fd'.name = some v := by simpa using hvs
      have hown : fd'.binding ∈ l.patterns.ids := by rw [hbinding]; exact hb
      simp only [List.map_cons, List.map_nil, List.contains_iff_mem.2 hown, hbd, ← hsame, hvalue, hty, Value.pack]
      cases hnull : bd.ty.allowsNull <;> simp [hnull]

end Placed

end Chain

end QueryPipeline
