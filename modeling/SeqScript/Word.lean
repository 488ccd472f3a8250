/-!
# 64-bit integers

The integers of the language are signed 64-bit words whose arithmetic is exact or
refused. Every operation is carried out on unbounded integers, and `ofInt?`
decides whether the result is a word.
-/

namespace SeqScript.Word

/-- The word of an integer, if it is one: from `-2 ^ 63` up to, but not
including, `2 ^ 63`. -/
def ofInt? (n : Int) : Option Int64 :=
  if -0x8000000000000000 ≤ n ∧ n < 0x8000000000000000 then some (Int64.ofInt n) else none

end SeqScript.Word
