/-!
# Number ranges

Integers of the query language are held in 64 bits.  Places in a text, ids and symbols are numbers below
`2 ^ 32`, and one list or one clause holds at most `2 ^ 16 - 1` members.
-/

namespace QueryPipeline

/-- The integer can be held in 64 bits, two's complement. -/
def FitsInt64 (n : Int) : Prop := -9223372036854775808 ≤ n ∧ n < 9223372036854775808

instance (n : Int) : Decidable (FitsInt64 n) := by unfold FitsInt64; infer_instance

/-- One past the largest id, symbol or place in a text. -/
def idLimit : Nat := 4294967296

/-- The largest number of members of one list. -/
def maxListLength : Nat := 65535

end QueryPipeline
