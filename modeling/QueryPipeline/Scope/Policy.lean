import QueryPipeline.Text.Blank

/-!
# Scope policies

A policy says how far a pattern variable, one that is bound by a test, may be used.
-/

namespace QueryPipeline

/-- How far pattern variables reach. -/
inductive ScopePolicy where
  /-- A pattern variable is confined to the clause that binds it. -/
  | disallow
  /-- A pattern variable may be used after its clause, and no two of them in a query share a name. -/
  | unique
deriving DecidableEq, Repr

namespace ScopePolicy

/-- The policy where none is asked for. -/
def standard : ScopePolicy := disallow

instance : Inhabited ScopePolicy := ⟨standard⟩

/-- How the policy is written. -/
def text : ScopePolicy → String
  | disallow => "disallow"
  | unique => "unique"

/-- Whether a pattern variable may be used after its clause. -/
def letsOut (p : ScopePolicy) : Bool := p == unique

/-- The policy that a text names, blanks at its ends and the case of its letters ignored. -/
def ofText? (s : String) : Option ScopePolicy :=
  let word := String.ofList ((Text.trimBlanks s.toList).map Char.toLower)
  if word = "disallow" then some disallow
  else if word = "unique" then some unique
  else none

/-- The complaint about a text that names no policy. -/
def unknownMessage (s : String) : String :=
  s!"unknown pattern scope policy `{s}` (expected `disallow` or `unique`)"

/-- The policy that a setting asks for; no setting, or one that names no policy, asks for the standard one. -/
def ofSetting (setting : Option String) : ScopePolicy := (setting.bind ofText?).getD standard

end ScopePolicy

end QueryPipeline
