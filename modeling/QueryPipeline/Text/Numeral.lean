import QueryPipeline.Bounds
import QueryPipeline.Text.Blank

/-!
# Reading integers

`readInt?` reads a decimal numeral of 64 bits: an optional sign and at least one digit, between blanks.
-/

namespace QueryPipeline.Text

/-- The value of a digit `0` to `9`. -/
def digit? (c : Char) : Option Nat :=
  if '0' ≤ c ∧ c ≤ '9' then some (c.toNat - '0'.toNat) else none

/-- The number that `acc` becomes when all the characters are digits that follow it. -/
def digitsFrom (acc : Nat) : List Char → Option Nat
  | [] => some acc
  | c :: cs => (digit? c).bind fun d => digitsFrom (10 * acc + d) cs

/-- The number written by at least one digit and nothing else. -/
def natural? : List Char → Option Nat
  | [] => none
  | cs => digitsFrom 0 cs

/-- The integer written by an optional sign and digits. -/
def integer? : List Char → Option Int
  | '+' :: cs => (natural? cs).map Int.ofNat
  | '-' :: cs => (natural? cs).map fun n => -Int.ofNat n
  | cs => (natural? cs).map Int.ofNat

/-- The 64-bit integer that a text writes, blanks at its ends ignored. -/
def readInt? (s : String) : Option Int :=
  (integer? (trimBlanks s.toList)).filter fun n => decide (FitsInt64 n)

end QueryPipeline.Text
