import QueryPipeline.Text.ExtendingMark
import QueryPipeline.Text.Ignorable
import QueryPipeline.Text.Unprintable

/-!
# Texts in quotes

A text is shown between double quotes.  Quotes and backslashes inside it are escaped by a backslash, four
control characters have an escape of their own, and a character that could not be seen, or would be drawn into
its neighbour, is shown by its code point in lower-case hexadecimal digits.
-/

namespace QueryPipeline.Text

/-- The escape of a character by its code point. -/
def codePointEscape (c : Char) : List Char :=
  ['\\', 'u', '\x7b'] ++ Nat.toDigits 16 c.toNat ++ ['\x7d']

/-- Whether a character cannot be told by its looks: it has no visible form, or it is drawn into the one before. -/
def isHidden (c : Char) : Bool := isUnprintable c || isIgnorable c || isExtendingMark c

/-- How one character stands in a quoted text. -/
def quotedChar (c : Char) : List Char :=
  match c with
  | '"' => ['\\', '"']
  | '\\' => ['\\', '\\']
  | '\x00' => ['\\', '0']
  | '\t' => ['\\', 't']
  | '\r' => ['\\', 'r']
  | '\n' => ['\\', 'n']
  | c => if isHidden c then codePointEscape c else [c]

/-- The text between double quotes. -/
def quoted (s : String) : String :=
  String.ofList ('"' :: s.toList.flatMap quotedChar ++ ['"'])

end QueryPipeline.Text
