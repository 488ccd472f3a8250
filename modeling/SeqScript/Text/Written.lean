/-!
# Integers and truth values as text

How integers and truth values are written, and which texts are read as one: an
optional sign and at least one decimal digit for an integer, the words `true`
and `false` in any mixture of cases for a truth value.
-/

namespace SeqScript.Text

-- ---------------------------------------------------------------------------
-- Writing
-- ---------------------------------------------------------------------------

/-- The decimal digits of a natural number. -/
def natText (n : Nat) : List Char := Nat.toDigits 10 n

/-- The decimal digits of an integer, with a minus sign if it is negative. -/
def intText (n : Int) : String :=
  String.ofList (if n < 0 then '-' :: natText n.natAbs else natText n.natAbs)

/-- The word for a truth value. -/
def boolText (b : Bool) : String := if b then "true" else "false"

-- ---------------------------------------------------------------------------
-- Reading
-- ---------------------------------------------------------------------------

/-- The digits `0` to `9`. -/
def isDigit (c : Char) : Bool := '0' ≤ c && c ≤ '9'

/-- The number a row of digits denotes. -/
def digitsValue (cs : List Char) : Nat :=
  cs.foldl (fun n c => 10 * n + (c.toNat - '0'.toNat)) 0

/-- A sign taken off the front: whether it was a minus, and what follows. -/
def splitSign : List Char → Bool × List Char
  | '-' :: rest => (true, rest)
  | '+' :: rest => (false, rest)
  | cs => (false, cs)

/-- The integer a text denotes. -/
def readInt? (cs : List Char) : Option Int :=
  let (negative, digits) := splitSign cs
  if digits.isEmpty || !digits.all isDigit then none
  else some (if negative then -(digitsValue digits : Int) else digitsValue digits)

/-- The truth value a word denotes. -/
def readBool? (cs : List Char) : Option Bool :=
  let word := String.ofList (cs.map Char.toLower)
  if word = "true" then some true else if word = "false" then some false else none

end SeqScript.Text
