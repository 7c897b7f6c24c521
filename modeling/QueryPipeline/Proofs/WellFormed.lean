import Mathlib
import QueryPipeline.Proofs.Lowering

/-!
# Pipelines follow their clauses

The stages of an accepted query are those of its clauses in order (`Pipeline.Follows`).  What a clause becomes depends
on its kind, on which of its variables later clauses use, and on whether the selection comes next (`Link.works`).  Each
stage takes in what the one before gives out.  A carrier is told by its id, and no stage gives out a variable that
neither came in nor is introduced by its clause.
-/

namespace QueryPipeline

/-! ### What a clause becomes -/

/-- Whether a clause after place `k` uses the binding. -/
def Flow.isUsedAfter (f : Flow) (k : Nat) (b : BindingId) : Bool :=
  (f.uses.drop (k + 1)).any fun us => us.any fun u => u.resolution == .earlier b

/-- What the stages of the clause at place `k` do, one after the other.

A filter that binds variables for later clauses makes outcomes and drops the failures.  It takes the carriers out of
the others, unless the selection is next. -/
def Link.works (l : Link) (f : Flow) (k : Nat) (beforeSelect : Bool) : List (Combinator × Body NodeId) :=
  match l.kind with
  | .source => []
  | .generator => [(.flatMap, .generate l.expr ⟨l.ranges.start⟩)]
  | .filter =>
    if l.patterns.ids.any (f.isUsedAfter k) then
      [(.map, .guard l.expr), (.filter, .rejectAbsent)] ++ if beforeSelect then [] else [(.map, .unwrap)]
    else
      [(.filter, .predicate l.expr)]
  | .define => [(.map, .extend [(⟨l.ranges.start⟩, l.expr)])]
  | .unpack => [(.map, .destructure l.expr (l.ranges.ids.zipIdx.filter fun p => f.isUsedAfter k p.1))]
  | .select => [(.map, .project l.expr)]

/-- Whether the clause at place `k` is the selection. -/
def Chain.isSelect (c : Chain) (k : Nat) : Bool := (c.links[k]?).any fun l => l.kind == .select

/-- What the stages of all clauses do, each with the place of its clause. -/
def Chain.works (c : Chain) (f : Flow) : List (Nat × Combinator × Body NodeId) :=
  c.links.zipIdx.flatMap fun p => (p.1.works f p.2 (c.isSelect (p.2 + 1))).map fun w => (p.2, w)

private theorem Link.works_exprs {l : Link} (h : l.kind ≠ .source) (f : Flow) (k : Nat) (beforeSelect : Bool) :
    (l.works f k beforeSelect).flatMap (fun w => w.2.exprs) = [l.expr] := by
  unfold Link.works
  cases hk : l.kind with
  | source => exact absurd hk h
  | filter =>
    simp only
    split
    · cases beforeSelect <;> rfl
    · rfl
  | generator | define | unpack | select => rfl

namespace Chain

variable {c : Chain} {f : Flow} {names : SymbolTable} {policy : ScopePolicy}
variable {before rest : List Link} {l : Link} {b : BindingId}

private theorem usesFrom_drop (c : Chain) (earlier done rest : List Link) :
    (c.usesFrom earlier (done ++ rest)).drop done.length = c.usesFrom (done.reverse ++ earlier) rest := by
  induction done generalizing earlier with
  | nil => rfl
  | cons l done ih => simpa [usesFrom] using ih (l :: earlier)

theorem KeepsRules.uses_drop (h : c.KeepsRules f names policy) (hat : c.At before l rest) :
    f.uses.drop (before.length + 1) = c.usesFrom (l :: before) rest := by
  have hsplit := usesFrom_drop c [] (l :: before).reverse rest
  rw [← hat.links_cons, ← h.uses] at hsplit
  simpa using hsplit

/-- What is used after a place is what the clauses behind it use. -/
theorem KeepsRules.isUsedAfter_iff (h : c.KeepsRules f names policy) (hat : c.At before l rest) :
    f.isUsedAfter before.length b = true ↔ c.ReadIn (l :: before) rest b := by
  unfold Flow.isUsedAfter ReadIn readsFrom
  rw [h.uses_drop hat, mem_used]
  simp [mem_readsOf]

/-- The selection comes next if one more clause is left. -/
theorem At.isSelect_next (hat : c.At before l rest) (hc : c.Formed) :
    c.isSelect (before.length + 1) = (rest.length == 1) := by
  unfold isSelect
  rw [hat.links_cons, List.getElem?_append_right (by simp)]
  cases rest with
  | nil => simp
  | cons l' rest =>
    have hat' : c.At (l :: before) l' rest := hat.links_cons
    obtain ⟨cl, -, -, -, hselect⟩ := hc _ _ _ hat'
    cases rest with
    | nil => simp [hselect.2 rfl]
    | cons l'' rest =>
      have hk : l'.kind ≠ .select := fun hk => List.cons_ne_nil _ _ (hselect.1 hk)
      simp [hk]

/-- The stages of a clause do what the clause becomes. -/
theorem KeepsRules.row_works (h : c.KeepsRules f names policy) (hat : c.At before l rest) (input : Shape) :
    (c.row before l rest input).map (fun s => (s.clause, s.kind, s.body)) =
      (l.works f before.length (c.isSelect (before.length + 1))).map fun w => (before.length, w) := by
  unfold row Link.works
  rw [hat.isSelect_next h.formed]
  cases hk : l.kind with
  | source | generator | define | select => rfl
  | unpack =>
    have hparts : l.ranges.ids.zipIdx.filter (fun p => (c.planned before l rest).contains p.1) =
        l.ranges.ids.zipIdx.filter fun p => f.isUsedAfter before.length p.1 := by
      refine List.filter_congr fun p hp => ?_
      have hid : p.1 ∈ l.ids := List.mem_append_left _ (List.fst_mem_of_mem_zipIdx hp)
      rw [Bool.eq_iff_iff, h.planned_contains hat, h.isUsedAfter_iff hat]
      exact and_iff_right ⟨l, by simp, hid⟩
    simp only [hparts]
    rfl
  | filter =>
    have hused : l.patterns.ids.any (used (c.readsFrom (l :: before) rest)).contains =
        l.patterns.ids.any (f.isUsedAfter before.length) := by
      refine congrArg _ (funext fun b => ?_)
      rw [Bool.eq_iff_iff, List.contains_iff_mem, h.isUsedAfter_iff hat]
      rfl
    simp only [hused]
    split
    · cases rest.length == 1 <;> rfl
    · rfl

private theorem KeepsRules.rows_works (h : c.KeepsRules f names policy) (hlinks : c.links = before.reverse ++ rest)
    (input : Shape) :
    (c.rows before input rest).map (fun s => (s.clause, s.kind, s.body)) =
      (rest.zipIdx before.length).flatMap fun p =>
        (p.1.works f p.2 (c.isSelect (p.2 + 1))).map fun w => (p.2, w) := by
  induction rest generalizing before input with
  | nil => rfl
  | cons l rest ih =>
    have hat : c.At before l rest := hlinks
    have hmore := ih hat.links_cons (outputAfter input (c.row before l rest input))
    rw [List.length_cons] at hmore
    rw [rows, List.map_append, List.zipIdx_cons, List.flatMap_cons, h.row_works hat, hmore]

/-- The clauses after the source evaluate their expressions, one each. -/
private theorem exprs_of_works {links : List Link} (h : ∀ l ∈ links, l.kind ≠ .source) (k : Nat) :
    ((links.zipIdx k).flatMap fun p =>
      (p.1.works f p.2 (c.isSelect (p.2 + 1))).map fun w => (p.2, w)).flatMap (fun w => w.2.2.exprs) =
      links.map Link.expr := by
  induction links generalizing k with
  | nil => rfl
  | cons l links ih =>
    have hmore := ih (fun l' hl' => h l' (List.mem_cons_of_mem _ hl')) (k + 1)
    rw [List.zipIdx_cons, List.flatMap_cons, List.flatMap_append, hmore, List.flatMap_map,
      Link.works_exprs (h l (by simp))]
    rfl

private theorem At.kind_after (hat : c.At [] l rest) (hc : c.Formed) : ∀ l' ∈ rest, l'.kind ≠ .source := by
  intro l' hl' hk
  obtain ⟨pre, post, rfl⟩ := List.append_of_mem hl'
  have hat' : c.At (pre.reverse ++ [l]) l' post := by
    unfold At at hat ⊢
    rw [hat]
    simp
  obtain ⟨cl, -, -, hsource, -⟩ := hc _ _ _ hat'
  exact absurd (hsource.1 hk) (by simp)

/-! ### Shapes of the stages -/

/-- The shapes of the stage are those that its work asks for. -/
def ShapesFit (c : Chain) (s : Stage NodeId) : Prop :=
  match s.body with
  | .predicate _ | .rejectAbsent => s.output = s.input
  | .guard _ => ∃ C, s.output = .outcome C C.encoding
  | .unwrap => ∃ C encoding, s.input = .outcome C encoding ∧ s.output = .carrier C
  | .project _ => ∃ l, c.links[s.clause]? = some l ∧ s.output = .projection l.ty
  | .extend _ | .destructure _ _ | .generate _ _ => ∃ C, s.output = .carrier C

/-- The stages of a clause go on from what comes in, each from what the one before gives out. -/
theorem Block.isChain {input output : Shape} {stages : List (Stage NodeId)}
    (h : c.Block before l rest input stages output) :
    stages.head?.map Stage.input = some input ∧ stages.IsChain (fun s s' => s'.input = s.output) ∧
      stages.getLast?.map Stage.output = some output := by
  cases h <;> simp

theorem Lowers.isChain {input : Shape} {stages : List (Stage NodeId)} (h : c.Lowers policy before input rest stages) :
    stages.head?.map Stage.input = some input ∧ stages.IsChain fun s s' => s'.input = s.output := by
  induction h with
  | select => exact ⟨rfl, List.isChain_singleton _⟩
  | @step before rest input output l C stages more hin hC hblock hrest ih =>
    obtain ⟨hhead, hchain, hlast⟩ := hblock.isChain
    obtain ⟨s, hs, hinput⟩ := Option.map_eq_some_iff.1 hhead
    refine ⟨?_, List.isChain_append.2 ⟨hchain, ih.2, fun x hx y hy => ?_⟩⟩
    · rw [List.head?_append, hs]
      exact congrArg some hinput
    · rw [Option.mem_def] at hx hy
      have hxout : x.output = output := by simpa [hx] using hlast
      have hyin : y.input = output := by simpa [hy] using ih.1
      rw [hxout, hyin]

/-- A stage of a clause hands its carrier on, or makes the planned one from what came in. -/
theorem Block.stage_shapes {input output : Shape} {stages : List (Stage NodeId)} {C : Carrier}
    (h : c.Block before l rest input stages output) (hin : input.carrier? = some C) {s : Stage NodeId}
    (hs : s ∈ stages) :
    s.clause = before.length ∧ c.ShapesFit s ∧
      ∃ C₁ C₂, s.input.carrier? = some C₁ ∧ s.output.carrier? = some C₂ ∧
        ((C₁ = C ∧ C₂ = C) ∨ (C₁ = C ∧ C₂ = c.planned before l rest) ∨
          (C₁ = c.planned before l rest ∧ C₂ = c.planned before l rest)) := by
  cases h with
  | forward =>
    obtain rfl := List.mem_singleton.1 hs
    exact ⟨rfl, rfl, C, C, hin, hin, Or.inl ⟨rfl, rfl⟩⟩
  | generator | define | unpack =>
    obtain rfl := List.mem_singleton.1 hs
    exact ⟨rfl, ⟨_, rfl⟩, C, _, hin, rfl, Or.inr (Or.inl ⟨rfl, rfl⟩)⟩
  | guard hk hsome hout =>
    subst hout
    simp only [List.mem_cons, List.not_mem_nil, or_false] at hs
    rcases hs with rfl | rfl | rfl
    · exact ⟨rfl, ⟨_, rfl⟩, C, _, hin, rfl, Or.inr (Or.inl ⟨rfl, rfl⟩)⟩
    · exact ⟨rfl, rfl, _, _, rfl, rfl, Or.inr (Or.inr ⟨rfl, rfl⟩)⟩
    · exact ⟨rfl, ⟨_, _, rfl, rfl⟩, _, _, rfl, rfl, Or.inr (Or.inr ⟨rfl, rfl⟩)⟩
  | guardLast hk hsome hout =>
    subst hout
    simp only [List.mem_cons, List.not_mem_nil, or_false] at hs
    rcases hs with rfl | rfl
    · exact ⟨rfl, ⟨_, rfl⟩, C, _, hin, rfl, Or.inr (Or.inl ⟨rfl, rfl⟩)⟩
    · exact ⟨rfl, rfl, _, _, rfl, rfl, Or.inr (Or.inr ⟨rfl, rfl⟩)⟩

/-! ### Carriers and their ids -/

/-- The carriers of a chain: that of the source, and those planned after the clauses behind it. -/
inductive IsCarrier (c : Chain) (first : Link) : Carrier → Prop
  | source : IsCarrier c first (c.carrierOf 0 [⟨first.ranges.start⟩])
  | planned {before rest : List Link} {l : Link} (hat : c.At before l rest) (hne : before ≠ []) :
    IsCarrier c first (c.planned before l rest)

private theorem At.unique {before' rest' : List Link} {l' : Link} (hat : c.At before l rest)
    (hat' : c.At before' l' rest') (hlen : before.length = before'.length) :
    before = before' ∧ l = l' ∧ rest = rest' := by
  unfold At at hat hat'
  rw [hat] at hat'
  obtain ⟨hbefore, hrest⟩ := List.append_inj hat' (by simpa using hlen)
  obtain ⟨hl, hrest⟩ := List.cons.inj hrest
  exact ⟨List.reverse_injective hbefore, hl, hrest⟩

/-- A carrier of the chain is told by its id, which is the place of its clause. -/
theorem IsCarrier.eq_of_id {first : Link} {C C' : Carrier} (h : c.IsCarrier first C) (h' : c.IsCarrier first C')
    (hid : C.id = C'.id) : C = C' := by
  cases h with
  | source =>
    cases h' with
    | source => rfl
    | planned hat hne =>
      have hzero : 0 = List.length _ := hid
      exact absurd (List.length_eq_zero_iff.1 hzero.symm) hne
  | planned hat hne =>
    cases h' with
    | source =>
      have hzero : List.length _ = 0 := hid
      exact absurd (List.length_eq_zero_iff.1 hzero) hne
    | planned hat' hne' =>
      obtain ⟨rfl, rfl, rfl⟩ := hat.unique hat' hid
      rfl

/-- A planned variable comes in, or the clause introduces it. -/
theorem KeepsRules.planned_fields (h : c.KeepsRules f names policy) (hat : c.At before l rest) {C : Carrier}
    (hC : c.Carries policy before (l :: rest) C) {fd : Field} (hfd : fd ∈ (c.planned before l rest).fields) :
    fd ∈ C.fields ∨ fd.binding ∈ l.ids := by
  obtain ⟨⟨l', hl', hid⟩, hread, bd, hbd, hname, hty⟩ := (h.mem_planned hat).1 hfd
  rcases List.mem_cons.1 hl' with rfl | hl'
  · exact Or.inr hid
  · left
    obtain ⟨fd', hfd', hbinding⟩ :=
      Carrier.contains_iff.1 (hC.complete _ (readIn_cons.2 (Or.inr hread)) ⟨l', hl', hid⟩)
    -- both fields are as the table has the binding
    obtain ⟨-, bd', hbd', hname', hty', -⟩ := hC.sound fd' hfd'
    rw [hbinding, hbd] at hbd'
    obtain rfl := Option.some.inj hbd'
    obtain rfl : fd' = fd := by
      cases fd
      cases fd'
      simp_all
    exact hfd'

end Chain

/-- The variables that a shape lets be read. -/
def Shape.fields (s : Shape) : List Field := (s.carrier?.map Carrier.fields).getD []

/-- The shapes of the stage fit its work, and it gives out no variable from nowhere. -/
structure Chain.Fits (c : Chain) (first : Link) (s : Stage NodeId) : Prop where
  shapes : c.ShapesFit s
  input : ∀ C, s.input.carrier? = some C → c.IsCarrier first C
  output : ∀ C, s.output.carrier? = some C → c.IsCarrier first C
  fields : ∀ fd ∈ s.output.fields, fd ∈ s.input.fields ∨ ∃ l, c.links[s.clause]? = some l ∧ fd.binding ∈ l.ids

namespace Chain

variable {c : Chain} {f : Flow} {names : SymbolTable} {policy : ScopePolicy}
variable {before rest : List Link} {l first : Link}

theorem Block.fits (h : c.KeepsRules f names policy) (hat : c.At before l rest) (hne : before ≠ [])
    {input output : Shape} {stages : List (Stage NodeId)} {C : Carrier}
    (hblock : c.Block before l rest input stages output) (hin : input.carrier? = some C)
    (hC : c.Carries policy before (l :: rest) C) (hfirst : c.IsCarrier first C) : ∀ s ∈ stages, c.Fits first s := by
  intro s hs
  have hplanned : c.IsCarrier first (c.planned before l rest) := .planned hat hne
  obtain ⟨hclause, hshapes, C₁, C₂, h₁, h₂, hcases⟩ := hblock.stage_shapes hin hs
  have hcarriers : c.IsCarrier first C₁ ∧ c.IsCarrier first C₂ ∧
      ∀ fd ∈ C₂.fields, fd ∈ C₁.fields ∨ fd.binding ∈ l.ids := by
    rcases hcases with ⟨rfl, rfl⟩ | ⟨rfl, rfl⟩ | ⟨rfl, rfl⟩
    · exact ⟨hfirst, hfirst, fun fd hfd => Or.inl hfd⟩
    · exact ⟨hfirst, hplanned, fun fd hfd => h.planned_fields hat hC hfd⟩
    · exact ⟨hplanned, hplanned, fun fd hfd => Or.inl hfd⟩
  obtain ⟨hC₁, hC₂, hfields⟩ := hcarriers
  refine ⟨hshapes, fun D hD => ?_, fun D hD => ?_, fun fd hfd => ?_⟩
  · obtain rfl := Option.mem_unique h₁ hD
    exact hC₁
  · obtain rfl := Option.mem_unique h₂ hD
    exact hC₂
  · unfold Shape.fields at hfd ⊢
    rw [h₂] at hfd
    rw [h₁]
    refine (hfields fd hfd).imp (fun hfd => hfd) fun hid => ⟨l, ?_, hid⟩
    rw [hclause, hat.getElem?]

theorem Lowers.fits (h : c.KeepsRules f names policy) {input : Shape} {stages : List (Stage NodeId)}
    (hlow : c.Lowers policy before input rest stages) (hlinks : c.links = before.reverse ++ rest) (hne : before ≠ [])
    (hfirst : ∀ C, input.carrier? = some C → c.IsCarrier first C) : ∀ s ∈ stages, c.Fits first s := by
  induction hlow with
  | @select before input l C hin hC =>
    intro s hs
    obtain rfl := List.mem_singleton.1 hs
    have hat : c.At before l [] := hlinks
    have hcarrier : (l.selection before.length input).output.carrier? = none := rfl
    refine ⟨⟨l, hat.getElem?, rfl⟩, hfirst, fun D hD => ?_, fun fd hfd => ?_⟩
    · rw [hcarrier] at hD
      cases hD
    · unfold Shape.fields at hfd
      rw [hcarrier] at hfd
      cases hfd
  | @step before rest input output l C stages more hin hC hblock hrest ih =>
    have hat : c.At before l rest := hlinks
    have hfits := hblock.fits h hat hne hin hC (hfirst C hin)
    -- what goes on to the next clause is what the last stage gives out
    have hnext : ∀ D, output.carrier? = some D → c.IsCarrier first D := by
      intro D hD
      obtain ⟨s, hs, rfl⟩ := Option.map_eq_some_iff.1 hblock.isChain.2.2
      exact (hfits s (List.mem_of_getLast? hs)).output D hD
    intro s hs
    rcases List.mem_append.1 hs with hs | hs
    · exact hfits s hs
    · exact ih hat.links_cons (List.cons_ne_nil l before) hnext s hs

end Chain

/-! ### The pipeline of a query -/

/-- The carriers that occur in the pipeline. -/
def Pipeline.carriers (p : Pipeline) : List Carrier :=
  p.sourceCarrier :: p.stages.flatMap fun s => s.input.carrier?.toList ++ s.output.carrier?.toList

/-- The pipeline is made of the clauses of the query in order, and its stages fit together. -/
structure Pipeline.Follows (p : Pipeline) (q : Query) (c : Chain) (f : Flow) : Prop where
  clauses : c.links.map (fun l => (l.kind, l.expr, l.ty)) = q.clauses.map fun cl => (cl.kind, cl.expr, cl.ty)
  works : p.stages.map (fun s => (s.clause, s.kind, s.body)) = c.works f
  source : some p.source = (q.clauses.map Clause.expr).head?
  exprs : p.stages.flatMap (fun s => s.body.exprs) = (q.clauses.map Clause.expr).tail
  shapes : ∀ s ∈ p.stages, c.ShapesFit s
  first : p.stages.head?.map Stage.input = some (.carrier p.sourceCarrier)
  joined : p.stages.IsChain fun s s' => s'.input = s.output
  carriers : ∀ C ∈ p.carriers, ∀ C' ∈ p.carriers, C.id = C'.id → C = C'
  fields : ∀ s ∈ p.stages, ∀ fd ∈ s.output.fields,
    fd ∈ s.input.fields ∨ ∃ l, c.links[s.clause]? = some l ∧ fd.binding ∈ l.ids

private theorem linksFrom_clauses {pool : Pool} {index count : Nat} {clauses : List Clause} {links : List Link}
    {bindings : List Binding} (h : linksFrom pool index count clauses = some (links, bindings)) :
    links.map (fun l => (l.kind, l.expr, l.ty)) = clauses.map fun cl => (cl.kind, cl.expr, cl.ty) := by
  induction clauses generalizing index count links bindings with
  | nil =>
    simp only [linksFrom, Option.some.injEq, Prod.mk.injEq] at h
    rw [← h.1]
    rfl
  | cons cl clauses ih =>
    simp only [linksFrom, Option.bind_eq_bind, Option.bind_eq_some_iff, Option.some.injEq, Prod.exists,
      Prod.mk.injEq] at h
    obtain ⟨t, -, links', bindings', h', rfl, -⟩ := h
    rw [List.map_cons, List.map_cons, ih h']

namespace Query.Accepted

variable {q : Query} {names : SymbolTable} {policy : ScopePolicy} {c : Chain} {f : Flow} {first : Link}
variable {rest : List Link} {p : Pipeline}

private theorem at_first (h : q.Accepted names policy c f first rest p) : c.At [] first rest := h.links

private theorem rows_works (h : q.Accepted names policy c f first rest p) :
    p.stages.map (fun s => (s.clause, s.kind, s.body)) = (rest.zipIdx 1).flatMap fun x =>
      (x.1.works f x.2 (c.isSelect (x.2 + 1))).map fun w => (x.2, w) := by
  rw [h.rows]
  exact h.rules.rows_works h.at_first.links_cons _

private theorem works (h : q.Accepted names policy c f first rest p) :
    p.stages.map (fun s => (s.clause, s.kind, s.body)) = c.works f := by
  obtain ⟨cl, -, -, hsource, -⟩ := h.rules.formed _ _ _ h.at_first
  have hnone : ∀ k next, first.works f k next = [] := by
    intro k next
    unfold Link.works
    rw [hsource.2 rfl]
  unfold Chain.works
  rw [h.rows_works, h.links, List.zipIdx_cons, List.flatMap_cons, hnone]
  rfl

private theorem exprs (h : q.Accepted names policy c f first rest p) :
    p.stages.flatMap (fun s => s.body.exprs) = rest.map Link.expr := by
  rw [← Chain.exprs_of_works (h.at_first.kind_after h.rules.formed) 1, ← h.rows_works, List.flatMap_map]

private theorem fits (h : q.Accepted names policy c f first rest p) : ∀ s ∈ p.stages, c.Fits first s := by
  refine h.stages.fits h.rules h.at_first.links_cons (List.cons_ne_nil first []) fun C hC => ?_
  obtain rfl := Option.some.inj hC
  rw [h.carrier]
  exact .source

private theorem isCarrier (h : q.Accepted names policy c f first rest p) : ∀ C ∈ p.carriers, c.IsCarrier first C := by
  intro C hC
  rcases List.mem_cons.1 hC with rfl | hC
  · rw [h.carrier]
    exact .source
  · obtain ⟨s, hs, hC⟩ := List.mem_flatMap.1 hC
    rcases List.mem_append.1 hC with hC | hC
    · exact (h.fits s hs).input C (Option.mem_toList.1 hC)
    · exact (h.fits s hs).output C (Option.mem_toList.1 hC)

end Query.Accepted

/-- The pipeline of an accepted query follows its clauses. -/
theorem Query.pipeline_follows {q : Query} {names : SymbolTable} {policy : ScopePolicy} {p : Pipeline}
    (h : q.lower names policy = .ok p) :
    ∃ c f, q.chain = .ok c ∧ c.flow names = .ok f ∧ p.Follows q c f := by
  obtain ⟨c, f, first, rest, acc⟩ := lower_eq_ok h
  obtain ⟨-, bindings, hb, -, -⟩ := chain_eq_ok acc.chain
  have hclauses := linksFrom_clauses hb
  have hexprs : q.clauses.map Clause.expr = first.expr :: rest.map Link.expr := by
    have hsnd := congrArg (List.map fun x => x.2.1) hclauses
    rw [acc.links, List.map_map, List.map_map] at hsnd
    exact hsnd.symm
  obtain ⟨hfirst, hjoined⟩ := acc.stages.isChain
  refine ⟨c, f, acc.chain, acc.flow, hclauses, acc.works, ?_, ?_, fun s hs => (acc.fits s hs).shapes, hfirst, hjoined,
    fun C hC C' hC' hid => (acc.isCarrier C hC).eq_of_id (acc.isCarrier C' hC') hid, fun s hs => (acc.fits s hs).fields⟩
  · rw [hexprs, acc.source]
    rfl
  · rw [hexprs, acc.exprs]
    rfl

/-- A filter that binds a variable for the selection, after a row of names of which one is used:
`from x in [7] let (y, z) = (x, 2) where x is int i select i + z`. -/
def Query.unpacked : Query where
  pool :=
    { nodes := #[⟨.literal (.int 7), ⟨0, 1⟩⟩, ⟨.row .list ⟨0, 1⟩, ⟨2, 3⟩⟩, ⟨.ident ⟨1⟩, ⟨4, 5⟩⟩,
        ⟨.literal (.int 2), ⟨6, 7⟩⟩, ⟨.row .tuple ⟨1, 2⟩, ⟨8, 9⟩⟩, ⟨.ident ⟨1⟩, ⟨10, 11⟩⟩,
        ⟨.test (.hasType .int) ⟨5⟩ ⟨4⟩, ⟨12, 13⟩⟩, ⟨.ident ⟨4⟩, ⟨14, 15⟩⟩, ⟨.ident ⟨3⟩, ⟨16, 17⟩⟩,
        ⟨.operator .add ⟨7⟩ ⟨8⟩, ⟨18, 19⟩⟩]
      lists := #[⟨0⟩, ⟨2⟩, ⟨3⟩] }
  clauses :=
    [⟨.source, ⟨1⟩, .one ⟨1⟩, .object, ⟨0, 1⟩⟩, ⟨.unpack, ⟨4⟩, .many [⟨2⟩, ⟨3⟩], .tuple [.object, .int], ⟨0, 1⟩⟩,
      ⟨.filter, ⟨6⟩, .none, .bool, ⟨0, 1⟩⟩, ⟨.select, ⟨9⟩, .none, .int, ⟨0, 1⟩⟩]

theorem Query.unpacked_pipeline_follows : ∃ p, Query.unpacked.lower ⟨#["", "x", "y", "z", "i"]⟩ .unique = .ok p ∧
    p.stages.map (fun s => (s.clause, s.kind, s.body)) =
      [(1, .map, .destructure ⟨4⟩ [(⟨2⟩, 1)]), (2, .map, .guard ⟨6⟩), (2, .filter, .rejectAbsent),
        (3, .map, .project ⟨9⟩)] ∧
    ∃ c f, Query.unpacked.chain = .ok c ∧ c.flow ⟨#["", "x", "y", "z", "i"]⟩ = .ok f ∧
      p.Follows Query.unpacked c f := by
  have hstages : (Query.unpacked.lower ⟨#["", "x", "y", "z", "i"]⟩ .unique).toOption.map
      (fun p => p.stages.map fun s => (s.clause, s.kind, s.body)) =
      some [(1, .map, .destructure ⟨4⟩ [(⟨2⟩, 1)]), (2, .map, .guard ⟨6⟩), (2, .filter, .rejectAbsent),
        (3, .map, .project ⟨9⟩)] := by cbv
  cases hp : Query.unpacked.lower ⟨#["", "x", "y", "z", "i"]⟩ .unique with
  | error e =>
    rw [hp] at hstages
    cases hstages
  | ok p =>
    rw [hp] at hstages
    exact ⟨p, rfl, Option.some.inj hstages, Query.pipeline_follows hp⟩

end QueryPipeline
