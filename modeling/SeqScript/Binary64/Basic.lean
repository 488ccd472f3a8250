/-!
# Binary64 numbers

The floating-point numbers of the language. There are two not-a-number values,
told apart by their sign: they are written alike and compare alike, but the total
order puts one above and the other below all numbers.

Where their sign comes from:

* an operation on a not-a-number value returns it, the left one of two;
* an operation that has no result on numbers, such as `0.0 / 0.0`, returns the
  negative one;
* negation turns one into the other, and the magnitude of both is the positive
  one.

Everything else is the arithmetic of `Float`.
-/

namespace SeqScript

/-- A binary64 number. -/
inductive Binary64 where
  /-- A number, an infinity or the not-a-number value of positive sign. -/
  | number (x : Float)
  /-- The not-a-number value of negative sign. -/
  | negativeNaN
  deriving DecidableEq

namespace Binary64

/-- The not-a-number value of positive sign. -/
def nan : Binary64 := number (Float.ofBits 0x7FF8000000000000)

/-- The positive infinity. -/
def infinity : Binary64 := number (Float.ofBits 0x7FF0000000000000)

/-- The number without the sign of a not-a-number value. -/
def toFloat : Binary64 → Float
  | number x => x
  | negativeNaN => Float.ofBits 0x7FF8000000000000

/-- The bit pattern: one sign bit, eleven bits of exponent, fifty-two bits of
fraction. -/
def bits : Binary64 → Nat
  | number x => x.toBits.toNat
  | negativeNaN => 0xFFF8000000000000

/-- Whether the value is not a number. -/
def isNaN : Binary64 → Bool
  | number x => x.isNaN
  | negativeNaN => true

/-- Decimal literals denote the nearest number. -/
instance : OfScientific Binary64 := ⟨fun m negative e => number (Float.ofScientific m negative e)⟩

instance : Inhabited Binary64 := ⟨0.0⟩

-- ---------------------------------------------------------------------------
-- Arithmetic
-- ---------------------------------------------------------------------------

/-- The result of an operation on numbers; where there is none, the negative
not-a-number value. -/
def ofResult (x : Float) : Binary64 := if x.isNaN then negativeNaN else number x

/-- An operation on two numbers, extended to the not-a-number values. -/
def lift₂ (f : Float → Float → Float) (x y : Binary64) : Binary64 :=
  if x.isNaN then x else if y.isNaN then y else ofResult (f x.toFloat y.toFloat)

instance : Add Binary64 := ⟨lift₂ fun x y => x + y⟩

instance : Sub Binary64 := ⟨lift₂ fun x y => x - y⟩

instance : Mul Binary64 := ⟨lift₂ fun x y => x * y⟩

instance : Div Binary64 := ⟨lift₂ fun x y => x / y⟩

/-- The number with the other sign. -/
def neg : Binary64 → Binary64
  | number x => if x.isNaN then negativeNaN else number (-x)
  | negativeNaN => nan

instance : Neg Binary64 := ⟨neg⟩

/-- The magnitude of a number: its bit pattern with the sign bit cleared. -/
def abs : Binary64 → Binary64
  | number x => number (Float.ofBits (x.toBits &&& 0x7FFFFFFFFFFFFFFF))
  | negativeNaN => nan

/-- The square root; a number below zero has none. -/
def sqrt (x : Binary64) : Binary64 := if x.isNaN then x else ofResult x.toFloat.sqrt

-- ---------------------------------------------------------------------------
-- Comparison
-- ---------------------------------------------------------------------------

/-- Whether two numbers are equal: zero has two signs and is one number, and a
not-a-number value is equal to nothing. -/
def equals (x y : Binary64) : Bool := x.toFloat == y.toFloat

/-- Whether a number is below another. -/
def below (x y : Binary64) : Bool := decide (x.toFloat < y.toFloat)

/-- Whether a number is below another or equal to it. -/
def atMost (x y : Binary64) : Bool := decide (x.toFloat ≤ y.toFloat)

/-- Whether a number is zero, of either sign. -/
def isZero (x : Binary64) : Bool := x.equals 0.0

end Binary64

end SeqScript
