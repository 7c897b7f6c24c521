import QueryPipeline.Span

/-!
# Diagnostics

A diagnostic is an error as it is shown: its code, what is wrong, the places in the text it is about, and what
could be done.
-/

namespace QueryPipeline

/-- The kinds of errors, each with a code of its own. -/
inductive ErrorCode where
  | malformed
  | ambiguous
  | scope
  | arity
  | unassigned
  | nameInUse
  | readOnly
  | internal
deriving DecidableEq, Inhabited, Repr

namespace ErrorCode

/-- All codes. -/
def all : List ErrorCode :=
  [malformed, ambiguous, scope, arity, unassigned, nameInUse, readOnly, internal]

/-- How the code is written. -/
def text : ErrorCode → String
  | malformed => "E4001"
  | ambiguous => "E4002"
  | scope => "E4003"
  | arity => "E4004"
  | unassigned => "E4005"
  | nameInUse => "E4006"
  | readOnly => "E4007"
  | internal => "E9001"

/-- The code that a text writes. -/
def ofText? (s : String) : Option ErrorCode := all.find? fun c => c.text == s

/-- What the code stands for. -/
def description : ErrorCode → String
  | malformed => "malformed query clause chain"
  | ambiguous => "ambiguous pattern variable"
  | scope => "pattern variable scope violation"
  | arity => "deconstruction arity mismatch"
  | unassigned => "use of unassigned pattern variable"
  | nameInUse => "name already in scope"
  | readOnly => "assignment to read-only query variable"
  | internal => "internal compiler error"

/-- Whether the code stands for a fault of the program itself. -/
def isInternal (c : ErrorCode) : Bool := c == internal

end ErrorCode

/-- A remark on a place in the text. -/
structure Label where
  span : Span
  message : String
  /-- Whether the error is here, rather than something it has to do with. -/
  isPrimary : Bool
deriving DecidableEq, Inhabited, Repr

/-- The label on a line of its own, an arrow before a primary one. -/
def Label.line (l : Label) : String :=
  let mark := if l.isPrimary then "-->" else "   "
  s!"\n  {mark} {l.span.text}: {l.message}"

/-- An error as it is shown. -/
structure Diagnostic where
  code : ErrorCode
  message : String
  labels : List Label
  suggestions : List String
  /-- The clause that the error is about. -/
  clause : Option Nat
  /-- The variable that the error is about. -/
  subject : Option String
deriving DecidableEq, Inhabited, Repr

namespace Diagnostic

/-- The diagnostic that says nothing but its code. -/
def ofCode (code : ErrorCode) : Diagnostic := ⟨code, "", [], [], none, none⟩

/-- Sets the message. -/
def withMessage (d : Diagnostic) (message : String) : Diagnostic := { d with message }

/-- Adds a primary label. -/
def withPrimary (d : Diagnostic) (span : Span) (message : String) : Diagnostic :=
  { d with labels := d.labels ++ [⟨span, message, true⟩] }

/-- Adds a label for context. -/
def withSecondary (d : Diagnostic) (span : Span) (message : String) : Diagnostic :=
  { d with labels := d.labels ++ [⟨span, message, false⟩] }

/-- Adds a suggestion. -/
def withSuggestion (d : Diagnostic) (suggestion : String) : Diagnostic :=
  { d with suggestions := d.suggestions ++ [suggestion] }

/-- Sets the clause. -/
def withClause (d : Diagnostic) (clause : Nat) : Diagnostic := { d with clause := some clause }

/-- Sets the variable. -/
def withSubject (d : Diagnostic) (x : String) : Diagnostic := { d with subject := some x }

/-- The span of the first primary label. -/
def primarySpan? (d : Diagnostic) : Option Span := (d.labels.find? Label.isPrimary).map Label.span

/-- The diagnostic as it is shown: the code and the message, then the labels, then the suggestions. -/
def text (d : Diagnostic) : String :=
  let clause := (d.clause.map fun k => s!" (clause {k})").getD ""
  s!"error [{d.code.text}]: {d.message}" ++ clause ++ String.join (d.labels.map Label.line) ++
    String.join (d.suggestions.map fun s => s!"\n  = help: {s}")

end Diagnostic

end QueryPipeline
