/-!
# Symbols and their spellings

Names and string literals are kept as symbols, small numbers handed out by a table in the order in which
spellings first arrive.  The empty spelling is always there, as symbol `0`, and stands for "no name".
-/

namespace QueryPipeline

/-- A name or a string literal, by its place in a symbol table. -/
structure Symbol where
  index : Nat
deriving DecidableEq, Inhabited, Repr

namespace Symbol

/-- The symbol of the empty spelling. -/
def blank : Symbol := ⟨0⟩

/-- Whether the symbol names anything. -/
def isPresent (x : Symbol) : Bool := x.index != 0

/-- The symbol as shown to a reader of the program's internals. -/
def text (x : Symbol) : String := s!"Name({x.index})"

/-- The first member of each name, in order, where `name` says how a member is called. -/
def firstOfEach {α : Type} (name : α → Symbol) : List α → List α
  | [] => []
  | a :: as => a :: (firstOfEach name as).filter fun b => name b ≠ name a

end Symbol

/-- The spellings met so far; the symbol of a spelling is its place among them. -/
structure SymbolTable where
  spellings : Array String
deriving DecidableEq, Repr

namespace SymbolTable

/-- The table that knows the empty spelling only. -/
def initial : SymbolTable := ⟨#[""]⟩

instance : Inhabited SymbolTable := ⟨initial⟩

/-- How many spellings the table knows. -/
def size (t : SymbolTable) : Nat := t.spellings.size

/-- Whether the table knows no spelling. -/
def isEmpty (t : SymbolTable) : Bool := t.spellings.isEmpty

/-- The symbol of a spelling, which is entered at the end if it is new. -/
def intern (t : SymbolTable) (s : String) : Symbol × SymbolTable :=
  match t.spellings.idxOf? s with
  | some i => (⟨i⟩, t)
  | none => (⟨t.size⟩, ⟨t.spellings.push s⟩)

/-- The symbols of some spellings, entered from left to right. -/
def internAll (t : SymbolTable) : List String → List Symbol × SymbolTable
  | [] => ([], t)
  | s :: rest =>
    let (x, t) := t.intern s
    let (xs, t) := t.internAll rest
    (x :: xs, t)

/-- The spelling of a symbol; a symbol that the table never handed out has the empty one. -/
def spelling (t : SymbolTable) (x : Symbol) : String := (t.spellings[x.index]?).getD ""

end SymbolTable

end QueryPipeline
