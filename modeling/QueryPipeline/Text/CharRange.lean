/-!
# Ranges of characters

A character class is given as a list of ranges of code points in increasing order, both ends included.
-/

namespace QueryPipeline.Text

/-- A range of code points: its first and its last member. -/
abbrev CharRange := Nat × Nat

/-- Whether the character lies in one of the ranges, which are in increasing order: none of those that follow a
range can hold a character in front of it. -/
def CharRange.covers (ranges : List CharRange) (c : Char) : Bool :=
  match ranges with
  | [] => false
  | r :: rest => r.1 ≤ c.toNat && (c.toNat ≤ r.2 || covers rest c)

end QueryPipeline.Text
