import Mathlib
import QueryPipeline.Bounds
import QueryPipeline.Symbol

/-!
# Symbol tables over a history

A new table is asked for the symbols of spellings, one call after the other.  What one call can do is said by
`SymbolTable.intern_eq`: the symbol is the place of the spelling, and a spelling that is not there is added at the end.
So the table only grows at its end (`SymbolTable.internAll_grows`), and its spellings stay different and start with
the empty one (`SymbolTable.Exact.internAll`).

Hence a symbol keeps its spelling, and symbols and spellings correspond one to one at every point of the history
(`SymbolTable.stays_bijective`).
-/

namespace QueryPipeline

namespace SymbolTable

variable {t : SymbolTable} {s : String} {x : Symbol}

/-- The spellings that the table knows, in the order of their symbols. -/
def known (t : SymbolTable) : List String := t.spellings.toList

/-- The symbol of a spelling by its place in the table; a spelling that is not there has its place at the end. -/
def place (t : SymbolTable) (s : String) : Symbol := ⟨t.known.idxOf s⟩

/-- All spellings are different, and the first one is empty. -/
structure Exact (t : SymbolTable) : Prop where
  nodup : t.known.Nodup
  first : t.known.head? = some ""

private theorem known_push (t : SymbolTable) (s : String) :
    known ⟨t.spellings.push s⟩ = t.known ++ [s] := Array.toList_push

private theorem length_known (t : SymbolTable) : t.known.length = t.size := Array.length_toList

private theorem spelling_eq (t : SymbolTable) (x : Symbol) : t.spelling x = (t.known[x.index]?).getD "" := by
  rw [spelling, known, Array.getElem?_toList]

private theorem spelling_place (h : s ∈ t.known) : t.spelling (t.place s) = s := by
  have hlt := List.idxOf_lt_length_iff.2 h
  rw [spelling_eq, place, List.getElem?_eq_getElem hlt, Option.getD_some, List.getElem_idxOf]

private theorem place_lt (h : s ∈ t.known) : (t.place s).index < t.size := by
  rw [← length_known]
  exact List.idxOf_lt_length_iff.2 h

private theorem place_inj {s' : String} (h : s ∈ t.known) : t.place s = t.place s' ↔ s = s' := by
  rw [place, place, Symbol.mk.injEq]
  exact List.idxOf_inj h

private theorem spelling_mem (h : x.index < t.size) : t.spelling x ∈ t.known := by
  rw [← length_known] at h
  rw [spelling_eq, List.getElem?_eq_getElem h]
  exact List.getElem_mem h

namespace Exact

theorem initial : SymbolTable.initial.Exact := ⟨List.nodup_singleton "", rfl⟩

private theorem place_spelling (ht : t.Exact) (h : x.index < t.size) : t.place (t.spelling x) = x := by
  rw [← length_known] at h
  rw [place, spelling_eq, List.getElem?_eq_getElem h, Option.getD_some, ht.nodup.idxOf_getElem]

private theorem place_blank (ht : t.Exact) : t.place "" = .blank := by
  obtain ⟨rest, hrest⟩ := List.head?_eq_some_iff.1 ht.first
  rw [place, hrest, List.idxOf_cons_self, Symbol.blank]

end Exact

/-! ### One call -/

/-- The answer is the place of the spelling, which is added at the end if it is not there. -/
theorem intern_eq (t : SymbolTable) (s : String) :
    t.intern s = (t.place s, if s ∈ t.known then t else ⟨t.spellings.push s⟩) := by
  have hplace : t.known.idxOf s = (t.spellings.idxOf? s).getD t.size := by
    rw [List.idxOf_eq_getD_idxOf?, known, Array.idxOf?_toList, Array.length_toList, size]
  unfold intern
  cases h : t.spellings.idxOf? s with
  | none =>
    have hnew : s ∉ t.known := fun hs => Array.idxOf?_eq_none_iff.1 h (Array.mem_toList_iff.1 hs)
    rw [h] at hplace
    rw [if_neg hnew, place, hplace, Option.getD_none]
  | some i =>
    have hold : s ∈ t.known := by
      have hsome : (t.spellings.idxOf? s).isSome = true := by rw [h, Option.isSome_some]
      exact Array.mem_toList_iff.2 (by simpa using hsome)
    rw [h] at hplace
    rw [if_pos hold, place, hplace, Option.getD_some]

private theorem known_intern (t : SymbolTable) (s : String) :
    (t.intern s).2.known = if s ∈ t.known then t.known else t.known ++ [s] := by
  rw [intern_eq]
  split
  · rfl
  · exact t.known_push s

private theorem intern_grows (t : SymbolTable) (s : String) : t.known <+: (t.intern s).2.known := by
  rw [known_intern]
  split
  · exact List.prefix_rfl
  · exact List.prefix_append _ _

private theorem mem_intern (t : SymbolTable) (s : String) : s ∈ (t.intern s).2.known := by
  rw [known_intern]
  split <;> simp [*]

/-- The answer is the place of the spelling in the new table too. -/
private theorem intern_place (t : SymbolTable) (s : String) : (t.intern s).1 = (t.intern s).2.place s := by
  rw [place, known_intern, intern_eq, place]
  split
  · rfl
  · rename_i hnew
    rw [List.idxOf_append_of_notMem hnew, List.idxOf_cons_self, List.idxOf_of_notMem hnew]
    rfl

theorem Exact.intern (ht : t.Exact) (s : String) : (t.intern s).2.Exact := by
  rw [intern_eq]
  by_cases h : s ∈ t.known
  · rw [if_pos h]
    exact ht
  · rw [if_neg h]
    refine ⟨?_, ?_⟩
    · rw [known_push, ← List.concat_eq_append]
      exact ht.nodup.concat h
    · rw [known_push, List.head?_append, ht.first]
      rfl

/-! ### A history of calls -/

private theorem internAll_cons (t : SymbolTable) (s : String) (ss : List String) :
    t.internAll (s :: ss) =
      ((t.intern s).1 :: ((t.intern s).2.internAll ss).1, ((t.intern s).2.internAll ss).2) := rfl

private theorem internAll_append (t : SymbolTable) (ss ss' : List String) :
    t.internAll (ss ++ ss') =
      ((t.internAll ss).1 ++ ((t.internAll ss).2.internAll ss').1, ((t.internAll ss).2.internAll ss').2) := by
  induction ss generalizing t with
  | nil => rfl
  | cons s ss ih =>
    rw [List.cons_append, internAll_cons, internAll_cons, ih, List.cons_append]

theorem internAll_grows (t : SymbolTable) (ss : List String) : t.known <+: (t.internAll ss).2.known := by
  induction ss generalizing t with
  | nil => exact List.prefix_rfl
  | cons s ss ih => exact (t.intern_grows s).trans (ih _)

theorem Exact.internAll (ht : t.Exact) (ss : List String) : (t.internAll ss).2.Exact := by
  induction ss generalizing t with
  | nil => exact ht
  | cons s ss ih => exact ih (ht.intern s)

/-- The answers are the places that the spellings have in the end. -/
private theorem internAll_places (t : SymbolTable) (ss : List String) :
    (t.internAll ss).1 = ss.map (t.internAll ss).2.place ∧ ∀ s ∈ ss, s ∈ (t.internAll ss).2.known := by
  induction ss generalizing t with
  | nil => exact ⟨rfl, by simp⟩
  | cons s ss ih =>
    obtain ⟨hplaces, hmem⟩ := ih (t.intern s).2
    have hgrows := (t.intern s).2.internAll_grows ss
    -- what comes later leaves the place of this spelling as it is
    have hfirst : (t.intern s).1 = ((t.intern s).2.internAll ss).2.place s := by
      rw [intern_place, place, place, hgrows.idxOf_eq_of_mem (t.mem_intern s)]
    constructor
    · rw [internAll_cons, hplaces, hfirst, List.map_cons]
    · exact List.forall_mem_cons.2 ⟨hgrows.subset (t.mem_intern s), hmem⟩

/-- The table knows what it knew and what it was asked for, in the order in which they came first. -/
private theorem known_internAll (t : SymbolTable) (earlier ss : List String) (h : t.known = earlier.eraseDups) :
    (t.internAll ss).2.known = (earlier ++ ss).eraseDups := by
  induction ss generalizing t earlier with
  | nil => rw [List.append_nil, ← h, internAll]
  | cons s ss ih =>
    have hstep : (t.intern s).2.known = (earlier ++ [s]).eraseDups := by
      rw [known_intern, h, List.eraseDups_append]
      by_cases hs : s ∈ earlier <;> simp [hs, List.removeAll, List.eraseDups_cons]
    have hrest := ih (t.intern s).2 (earlier ++ [s]) hstep
    rwa [List.append_assoc, List.singleton_append] at hrest

/-- The table after a history of calls on a new one. -/
def after (ss : List String) : SymbolTable := (initial.internAll ss).2

/-- The answers to the calls of a history on a new table. -/
def answers (ss : List String) : List Symbol := (initial.internAll ss).1

private theorem after_append (ss ss' : List String) : after (ss ++ ss') = ((after ss).internAll ss').2 := by
  rw [after, internAll_append, after]

private theorem exact_after (ss : List String) : (after ss).Exact := Exact.initial.internAll ss

private theorem answers_eq (ss : List String) : answers ss = ss.map (after ss).place := (initial.internAll_places ss).1

private theorem known_after (ss : List String) : (after ss).known = ("" :: ss).eraseDups :=
  initial.known_internAll [""] ss rfl

private theorem mem_after {ss : List String} : s ∈ (after ss).known ↔ s = "" ∨ s ∈ ss := by
  rw [known_after, List.mem_eraseDups, List.mem_cons]

private theorem after_grows {ss : List String} {m n : Nat} (h : m ≤ n) :
    (after (ss.take m)).known <+: (after (ss.take n)).known := by
  obtain ⟨more, hmore⟩ := List.take_prefix_take_left (l := ss) h
  rw [← hmore, after_append]
  exact internAll_grows _ more

/-- The call that comes after `k` others asks for the spelling and is given the symbol. -/
def Gives (ss : List String) (k : Nat) (s : String) (x : Symbol) : Prop :=
  ss[k]? = some s ∧ x = ((after (ss.take k)).intern s).1

/-- From then on, the symbol is the place of the spelling. -/
private theorem Gives.place_eq {ss : List String} {k n : Nat} (h : Gives ss k s x) (hn : k < n) :
    s ∈ (after (ss.take n)).known ∧ x = (after (ss.take n)).place s := by
  obtain ⟨hs, rfl⟩ := h
  have hnext : after (ss.take (k + 1)) = ((after (ss.take k)).intern s).2 := by
    rw [List.take_add_one, hs, Option.toList_some, after_append]
    rfl
  have hmem : s ∈ (after (ss.take (k + 1))).known := by
    rw [hnext]
    exact mem_intern _ s
  have hgrows : (after (ss.take (k + 1))).known <+: (after (ss.take n)).known := after_grows hn
  refine ⟨hgrows.subset hmem, ?_⟩
  rw [intern_place, ← hnext, place, place, hgrows.idxOf_eq_of_mem hmem]

/-- The answers are what the calls are given, one after the other. -/
private theorem answers_getElem? {ss : List String} {k : Nat} : (answers ss)[k]? = some x ↔ ∃ s, Gives ss k s x := by
  rw [answers_eq, List.getElem?_map, Option.map_eq_some_iff]
  refine exists_congr fun s => and_congr_right fun hs => ?_
  obtain ⟨hk, -⟩ := List.getElem?_eq_some_iff.1 hs
  obtain ⟨-, hplace⟩ := Gives.place_eq ⟨hs, rfl⟩ hk
  rw [List.take_length] at hplace
  rw [← hplace, eq_comm]

/-! ### The order of first calls -/

/-- Under a function that keeps members apart, first occurrences stay first occurrences. -/
private theorem eraseDups_map {α β : Type} [DecidableEq α] [DecidableEq β] {f : α → β} (l : List α)
    (h : ∀ a ∈ l, ∀ b ∈ l, f a = f b → a = b) : (l.map f).eraseDups = l.eraseDups.map f := by
  induction hn : l.length using Nat.strong_induction_on generalizing l with
  | _ n ih =>
  cases l with
  | nil => rfl
  | cons a l =>
    have hfilter : (l.map f).filter (fun b => !b == f a) = (l.filter fun b => !b == a).map f := by
      rw [List.filter_map]
      refine congrArg (List.map f) (List.filter_congr fun b hb => ?_)
      have hiff : f b = f a ↔ b = a := ⟨h b (by simp [hb]) a (by simp), congrArg f⟩
      simp [hiff]
    have hshorter : (l.filter fun b => !b == a).length < n := by
      rw [← hn, List.length_cons]
      exact Nat.lt_succ_of_le (List.length_filter_le _ l)
    have hrest := ih _ hshorter (l.filter fun b => !b == a)
      (fun b hb c hc => h b (by simp [List.mem_of_mem_filter hb]) c (by simp [List.mem_of_mem_filter hc])) rfl
    rw [List.map_cons, List.eraseDups_cons, List.eraseDups_cons, List.map_cons, hfilter, hrest]

/-- The symbols are numbered in the order in which they are first given. -/
private theorem answers_numbered (ss : List String) :
    (Symbol.blank :: answers ss).eraseDups.map Symbol.index = List.range (after ss).size := by
  have hexact := exact_after ss
  have hplaces : Symbol.blank :: answers ss = ("" :: ss).map (after ss).place := by
    rw [List.map_cons, hexact.place_blank, answers_eq]
  have hmem : ∀ s ∈ "" :: ss, s ∈ (after ss).known := by
    intro s hs
    rwa [mem_after, ← List.mem_cons]
  have hapart : ∀ s ∈ "" :: ss, ∀ s' ∈ "" :: ss, (after ss).place s = (after ss).place s' → s = s' := by
    intro s hs s' _ hplace
    exact (place_inj (hmem s hs)).1 hplace
  rw [hplaces, eraseDups_map _ hapart, ← known_after, ← length_known, List.map_map]
  refine List.ext_getElem (by simp) fun i hi _ => ?_
  simp only [List.getElem_map, Function.comp_apply, place, List.getElem_range]
  exact hexact.nodup.idxOf_getElem i _

/-- There is one symbol more than different spellings at most, for the empty spelling. -/
private theorem size_after_le (ss : List String) : (after ss).size ≤ ss.eraseDups.length + 1 := by
  have hsubset : (after ss).known ⊆ "" :: ss.eraseDups := by
    intro s hs
    rcases mem_after.1 hs with rfl | hs
    · simp
    · exact List.mem_cons_of_mem _ (List.mem_eraseDups.2 hs)
  rw [← length_known]
  exact (List.subperm_of_subset (exact_after ss).nodup hsubset).length_le

private theorem answers_lt {ss : List String} (hx : x ∈ answers ss) : x.index < (after ss).size := by
  rw [answers_eq] at hx
  obtain ⟨s, hs, rfl⟩ := List.mem_map.1 hx
  exact place_lt (mem_after.2 (Or.inr hs))

end SymbolTable

/-! ### A table with an index -/

/-- A symbol table that keeps the number of each spelling in a map beside the spellings. -/
structure IndexedTable where
  index : Std.HashMap String Nat
  spellings : Array String

namespace IndexedTable

/-- The table that knows the empty spelling only. -/
def initial : IndexedTable := ⟨(∅ : Std.HashMap String Nat).insert "" 0, #[""]⟩

/-- The symbol of a spelling, which is entered on both sides if it is new; none if there is no number left. -/
def intern? (t : IndexedTable) (s : String) : Option (Symbol × IndexedTable) :=
  match t.index[s]? with
  | some i => some (⟨i⟩, t)
  | none =>
    if t.spellings.size < idLimit then
      some (⟨t.spellings.size⟩, ⟨t.index.insert s t.spellings.size, t.spellings.push s⟩)
    else
      none

/-- The symbols of some spellings, entered from left to right. -/
def internAll? (t : IndexedTable) : List String → Option (List Symbol × IndexedTable)
  | [] => some ([], t)
  | s :: rest => do
    let (x, t) ← t.intern? s
    let (xs, t) ← t.internAll? rest
    return (x :: xs, t)

/-- The two tables have the same spellings, and the map has their places. -/
structure Mirrors (i : IndexedTable) (t : SymbolTable) : Prop where
  spellings : i.spellings = t.spellings
  index : ∀ s, i.index[s]? = if s ∈ t.known then some (t.place s).index else none

variable {i : IndexedTable} {t : SymbolTable} {s : String}

private theorem mirrors_initial : initial.Mirrors .initial := by
  refine ⟨rfl, fun s => ?_⟩
  by_cases h : "" = s
  · subst h
    simp [initial, SymbolTable.initial, SymbolTable.known, SymbolTable.place]
  · simp [initial, SymbolTable.initial, SymbolTable.known, h, Ne.symm h]

/-- The map and the spellings are inverse to each other. -/
private theorem Mirrors.inverse (h : i.Mirrors t) (ht : t.Exact) (n : Nat) :
    i.index[s]? = some n ↔ i.spellings[n]? = some s := by
  rw [h.index, h.spellings, ← Array.getElem?_toList]
  constructor
  · intro hn
    split at hn
    · rename_i hs
      obtain rfl := Option.some.inj hn
      have hlt := List.idxOf_lt_length_iff.2 hs
      exact (List.getElem?_eq_getElem hlt).trans (congrArg some (List.getElem_idxOf hlt))
    · cases hn
  · intro hs
    obtain ⟨hn, rfl⟩ := List.getElem?_eq_some_iff.1 hs
    have hmem : t.spellings.toList[n] ∈ t.known := List.getElem_mem hn
    rw [if_pos hmem]
    exact congrArg some (ht.nodup.idxOf_getElem n hn)

/-- Entering a new spelling on both sides keeps the two sides in step. -/
theorem Mirrors.enter (h : i.Mirrors t) (hs : s ∉ t.known) :
    Mirrors ⟨i.index.insert s i.spellings.size, i.spellings.push s⟩ ⟨t.spellings.push s⟩ := by
  refine ⟨congrArg (·.push s) h.spellings, fun s' => ?_⟩
  show (i.index.insert s i.spellings.size)[s']? = _
  rw [Std.HashMap.getElem?_insert, h.index, SymbolTable.place, SymbolTable.place, SymbolTable.known_push,
    List.idxOf_append]
  by_cases hnew : s = s'
  · subst hnew
    have hsize : t.known.length = i.spellings.size := by rw [SymbolTable.length_known, SymbolTable.size, h.spellings]
    simp [hs, hsize]
  · by_cases hold : s' ∈ t.known <;> simp [hnew, Ne.symm hnew, hold]

/-- One call gives the same symbol, unless there is no number left. -/
theorem Mirrors.intern (h : i.Mirrors t) (hroom : (t.intern s).2.size ≤ idLimit) :
    ∃ j, i.intern? s = some ((t.intern s).1, j) ∧ j.Mirrors (t.intern s).2 := by
  have hindex := h.index s
  rw [SymbolTable.intern_eq] at hroom ⊢
  unfold intern?
  by_cases hs : s ∈ t.known
  · rw [if_pos hs] at hindex ⊢
    rw [hindex]
    exact ⟨i, rfl, h⟩
  · rw [if_neg hs] at hindex hroom ⊢
    have hplace : t.place s = ⟨i.spellings.size⟩ := by
      rw [SymbolTable.place, List.idxOf_of_notMem hs, SymbolTable.length_known, SymbolTable.size, h.spellings]
    have hfree : i.spellings.size < idLimit := by
      rw [SymbolTable.size, Array.size_push] at hroom
      rw [h.spellings]
      omega
    rw [hindex, hplace]
    exact ⟨_, if_pos hfree, h.enter hs⟩

/-- A history of calls gives the same symbols, unless there is no number left. -/
theorem Mirrors.internAll (h : i.Mirrors t) (ss : List String) (hroom : (t.internAll ss).2.size ≤ idLimit) :
    ∃ j, i.internAll? ss = some ((t.internAll ss).1, j) ∧ j.Mirrors (t.internAll ss).2 := by
  induction ss generalizing i t with
  | nil => exact ⟨i, rfl, h⟩
  | cons s ss ih =>
    have hgrows := ((t.intern s).2.internAll_grows ss).length_le
    rw [SymbolTable.length_known, SymbolTable.length_known] at hgrows
    obtain ⟨j, hj, hmirrors⟩ := h.intern (s := s) (Nat.le_trans hgrows hroom)
    obtain ⟨k, hk, hmirrors⟩ := ih hmirrors hroom
    refine ⟨k, ?_, hmirrors⟩
    rw [internAll?, hj, SymbolTable.internAll_cons]
    simp [hk]

end IndexedTable

namespace SymbolTable

/-- At every point of a history of calls on a new table, spelling is one to one from the symbols below the size of the
table to the empty spelling and those that came.  A symbol that was given is spelled as was asked for from then on, two
symbols that were given are equal exactly if the spellings are, and the blank symbol is given for the empty spelling
only.  Symbols are numbered in the order in which they are first given, the blank one being there from the start, and
spellings stand in the order in which they first came.  Later calls do not change how a symbol is spelled.  If fewer
than `2 ^ 32` different spellings come, a table with an index does not run out of numbers and gives the same symbols,
and its two sides are inverse to each other. -/
theorem stays_bijective (ss : List String) :
    (∀ n, Set.BijOn (after (ss.take n)).spelling {x | x.index < (after (ss.take n)).size}
      {s | s = "" ∨ s ∈ ss.take n}) ∧
    (∀ k s x, Gives ss k s x → ∀ n, k < n → (after (ss.take n)).spelling x = s) ∧
    (∀ k s x l s' x', Gives ss k s x → Gives ss l s' x' → (x = x' ↔ s = s')) ∧
    (∀ k s x, Gives ss k s x → (x = .blank ↔ s = "")) ∧
    (∀ k x, (answers ss)[k]? = some x ↔ ∃ s, Gives ss k s x) ∧
    (Symbol.blank :: answers ss).eraseDups.map Symbol.index = List.range (after ss).size ∧
    (after ss).spellings.toList = ("" :: ss).eraseDups ∧
    (∀ m n x, m ≤ n → x.index < (after (ss.take m)).size →
      (after (ss.take n)).spelling x = (after (ss.take m)).spelling x) ∧
    (ss.eraseDups.length < idLimit → ∃ i, IndexedTable.initial.internAll? ss = some (answers ss, i) ∧
      i.spellings = (after ss).spellings ∧
      (∀ (s : String) (n : Nat), i.index[s]? = some n ↔ i.spellings[n]? = some s) ∧
      ∀ x ∈ answers ss, x.index < idLimit) := by
  refine ⟨?_, ?_, ?_, ?_, fun k x => answers_getElem?, answers_numbered ss, known_after ss, ?_, ?_⟩
  · intro n
    refine ⟨fun x hx => mem_after.1 (spelling_mem hx), ?_, fun s hs => ?_⟩
    · intro x hx y hy hxy
      rw [← (exact_after _).place_spelling hx, hxy, (exact_after _).place_spelling hy]
    · have hmem := mem_after.2 hs
      exact ⟨_, place_lt hmem, spelling_place hmem⟩
  · intro k s x h n hn
    obtain ⟨hmem, rfl⟩ := h.place_eq hn
    exact spelling_place hmem
  · intro k s x l s' x' h h'
    have hk : k < max k l + 1 := by omega
    have hl : l < max k l + 1 := by omega
    obtain ⟨hmem, rfl⟩ := h.place_eq hk
    obtain ⟨-, rfl⟩ := h'.place_eq hl
    exact place_inj hmem
  · intro k s x h
    obtain ⟨hmem, rfl⟩ := h.place_eq (Nat.lt_succ_self k)
    rw [← (exact_after _).place_blank]
    exact place_inj hmem
  · intro m n x hmn hx
    obtain ⟨more, hmore⟩ : (after (ss.take m)).known <+: (after (ss.take n)).known := after_grows hmn
    rw [← length_known] at hx
    rw [spelling_eq, spelling_eq, ← hmore, List.getElem?_append_left hx]
  · intro hfew
    have hroom : (after ss).size ≤ idLimit := Nat.le_trans (size_after_le ss) hfew
    obtain ⟨i, hanswers, hmirrors⟩ := IndexedTable.mirrors_initial.internAll ss hroom
    refine ⟨i, hanswers, hmirrors.spellings, fun s n => hmirrors.inverse (exact_after ss) n, fun x hx => ?_⟩
    exact Nat.lt_of_lt_of_le (answers_lt hx) hroom

/-- A history in which a spelling comes twice, and the empty one once. -/
def repeatedCalls : List String := ["x", "", "y", "x"]

theorem repeatedCalls_bijective :
    answers repeatedCalls = [⟨1⟩, .blank, ⟨2⟩, ⟨1⟩] ∧
    Gives repeatedCalls 0 "x" ⟨1⟩ ∧ Gives repeatedCalls 3 "x" ⟨1⟩ ∧
    (after (repeatedCalls.take 1)).spelling ⟨1⟩ = "x" ∧ (after (repeatedCalls.take 3)).spelling ⟨1⟩ = "x" ∧
    repeatedCalls.eraseDups.length < idLimit ∧
    ∃ i, IndexedTable.initial.internAll? repeatedCalls = some ([⟨1⟩, .blank, ⟨2⟩, ⟨1⟩], i) ∧
      i.spellings = #["", "x", "y"] ∧ i.index["y"]? = some 2 := by
  obtain ⟨-, hspelled, -, -, hanswers, -, -, -, hindexed⟩ := stays_bijective repeatedCalls
  have hall : answers repeatedCalls = [⟨1⟩, .blank, ⟨2⟩, ⟨1⟩] := by cbv
  have hfew : repeatedCalls.eraseDups.length < idLimit := by decide
  have hfirst : Gives repeatedCalls 0 "x" ⟨1⟩ := by
    obtain ⟨s, hs⟩ := (hanswers 0 ⟨1⟩).1 (by rw [hall]; rfl)
    obtain rfl : s = "x" := Option.some.inj hs.1.symm
    exact hs
  have hlast : Gives repeatedCalls 3 "x" ⟨1⟩ := by
    obtain ⟨s, hs⟩ := (hanswers 3 ⟨1⟩).1 (by rw [hall]; rfl)
    obtain rfl : s = "x" := Option.some.inj hs.1.symm
    exact hs
  obtain ⟨i, hi, hspellings, hinverse, -⟩ := hindexed hfew
  have hspellings : i.spellings = #["", "x", "y"] := by
    rw [hspellings]
    cbv
  rw [hall] at hi
  refine ⟨hall, hfirst, hlast, hspelled 0 "x" ⟨1⟩ hfirst 1 (by decide), hspelled 0 "x" ⟨1⟩ hfirst 3 (by decide), hfew,
    i, hi, hspellings, ?_⟩
  rw [hinverse, hspellings]
  rfl

end SymbolTable

end QueryPipeline
