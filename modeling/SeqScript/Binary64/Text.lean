import SeqScript.Binary64.Shortest
import SeqScript.Text.Written

/-!
# Numbers as text

How a binary64 number is written, and which texts are read as one.

A number is written with the fewest digits that read back. Between `1e-4` and
`1e16` it is positional and keeps at least one digit right of the point; outside
it has one digit left of the point, a fraction only if there are more digits,
and a plain exponent: `1.0`, `0.0001`, `1e16`, `1.5e-7`.

A text is read as a number if it is an optional sign followed by `inf`,
`infinity` or `nan` in any mixture of cases, or by decimal digits with an
optional point among them and an optional exponent. Nothing else is: no blanks,
no digit separators, no hexadecimal.
-/

namespace SeqScript.Binary64

open Text (natText intText isDigit digitsValue splitSign)

-- ---------------------------------------------------------------------------
-- Writing
-- ---------------------------------------------------------------------------

/-- The exponents of the leading digit that are written positionally. -/
def isPositional (leading : Int) : Bool := decide (-4 ≤ leading) && decide (leading < 16)

/-- A positive decimal as text. -/
def Decimal.text (d : Decimal) : List Char :=
  let digits := natText d.digits
  let leading := d.exponent + digits.length - 1
  if isPositional leading then
    if 0 ≤ d.exponent then
      digits ++ List.replicate d.exponent.toNat '0' ++ ['.', '0']
    else if 0 ≤ leading then
      let whole := (leading + 1).toNat
      digits.take whole ++ '.' :: digits.drop whole
    else
      '0' :: '.' :: List.replicate (-leading - 1).toNat '0' ++ digits
  else
    let fraction := if digits.length = 1 then [] else '.' :: digits.drop 1
    digits.take 1 ++ fraction ++ 'e' :: (intText leading).toList

/-- The text of a number. -/
def text (x : Binary64) : String :=
  match parts x with
  | .nan => "NaN"
  | .infinite negative => if negative then "-inf" else "inf"
  | .finite negative m q =>
    let body := if m = 0 then ['0', '.', '0'] else (shortest m q).text
    String.ofList (if negative then '-' :: body else body)

-- ---------------------------------------------------------------------------
-- Reading
-- ---------------------------------------------------------------------------

/-- Digits in front and what follows them. -/
def splitDigits (cs : List Char) : List Char × List Char :=
  (cs.takeWhile isDigit, cs.dropWhile isDigit)

/-- The fraction that follows the whole part, if there is a point. -/
def splitFraction : List Char → List Char × List Char
  | '.' :: rest => splitDigits rest
  | cs => ([], cs)

/-- The exponent that ends a number: none at all counts as zero. -/
def readExponent? : List Char → Option Int
  | [] => some 0
  | c :: rest =>
    if c = 'e' ∨ c = 'E' then
      let (negative, rest) := splitSign rest
      let (digits, rest) := splitDigits rest
      if digits.isEmpty || !rest.isEmpty then none
      else some (if negative then -(digitsValue digits : Int) else digitsValue digits)
    else none

/-- The number nearest to `m · 10 ^ e`. Decimals whose leading digit stands
above the greatest number or below half the smallest one are settled without
writing out the power of ten. -/
def ofDecimal (m : Nat) (e : Int) : Binary64 :=
  if m = 0 then 0.0
  else
    let leading := e + (natText m).length - 1
    if 309 < leading then infinity
    else if leading < -330 then 0.0
    else number (Float.ofScientific m (decide (e < 0)) e.natAbs)

/-- The unsigned number a text denotes. -/
def readUnsigned? (cs : List Char) : Option Binary64 :=
  let word := String.ofList (cs.map Char.toLower)
  if word = "inf" ∨ word = "infinity" then some (infinity)
  else if word = "nan" then some nan
  else
    let (whole, rest) := splitDigits cs
    let (fraction, rest) := splitFraction rest
    if whole.isEmpty && fraction.isEmpty then none
    else
      (readExponent? rest).map fun e =>
        ofDecimal (digitsValue (whole ++ fraction)) (e - fraction.length)

/-- The number a text denotes. -/
def read? (s : String) : Option Binary64 :=
  let (negative, rest) := splitSign s.toList
  (readUnsigned? rest).map fun x => if negative then -x else x

end SeqScript.Binary64
