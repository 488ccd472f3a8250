import SeqScript.Binary64.Basic

/-!
# Binary64 numbers taken apart

A finite binary64 number is `± m · 2 ^ q` with a natural significand `m` and an
integer exponent `q`. This module reads the three parts off the bit pattern and
puts them back together, and defines on the parts what the arithmetic of the
language needs beyond the four basic operations:

* `truncate?`: the integer a finite number has left of its point;
* `remainder`: what is left of a division with the quotient cut off, exactly;
* `compareTotal`: the total order in which `-0.0` stands before `0.0`, the
  positive not-a-number value above everything else and the negative one below;
* `ofWord`: the nearest number to a 64-bit integer.

All of it is computed on integers, so nothing here rounds except `ofWord`.
-/

namespace SeqScript.Binary64

-- ---------------------------------------------------------------------------
-- Taking a number apart
-- ---------------------------------------------------------------------------

/-- What a bit pattern stands for. -/
inductive Parts where
  | nan
  | infinite (negative : Bool)
  /-- The number `± significand · 2 ^ exponent`. -/
  | finite (negative : Bool) (significand : Nat) (exponent : Int)
  deriving Repr, DecidableEq

/-- The exponent of the smallest positive number and of all subnormal ones. -/
def leastExponent : Int := -1074

/-- The bit of the sign, `2 ^ 63`. -/
def signBit : Nat := 0x8000000000000000

/-- The bit above the fraction, `2 ^ 52`, which normal numbers have and do not
write. -/
def hiddenBit : Nat := 0x10000000000000

/-- The parts written in a bit pattern: one sign bit, eleven bits of exponent,
fifty-two bits of fraction. -/
def Parts.ofBits (bits : Nat) : Parts :=
  let negative := bits / signBit % 2 == 1
  let exponent : Nat := bits / hiddenBit % 2048
  let fraction := bits % hiddenBit
  if exponent = 2047 then
    if fraction = 0 then .infinite negative else .nan
  else if exponent = 0 then .finite negative fraction leastExponent
  else .finite negative (hiddenBit + fraction) ((exponent : Int) - 1075)

/-- The parts of a number. -/
def parts (x : Binary64) : Parts := Parts.ofBits x.bits

/-- The number `± m · 2 ^ q`, for `m` below `2 ^ 53` and `q` at least
`leastExponent`: the significand is moved up to its full width, or as far as
the least exponent allows. -/
def ofParts (negative : Bool) (m : Nat) (q : Int) : Binary64 :=
  let ofBits (bits : Nat) := number (Float.ofBits (UInt64.ofNat bits))
  let sign := if negative then signBit else 0
  if m = 0 then ofBits sign
  else
    let room := 52 - m.log2
    let spare := (q - leastExponent).toNat
    if spare < room then ofBits (sign + m * Nat.pow 2 spare)
    else
      let biased := (q - room + 1075).toNat
      ofBits (sign + biased * hiddenBit + (m * Nat.pow 2 room - hiddenBit))

-- ---------------------------------------------------------------------------
-- Integers
-- ---------------------------------------------------------------------------

/-- The number nearest to a 64-bit integer; of two equally near ones the one
with the even significand. -/
def ofWord (n : Int64) : Binary64 :=
  let magnitude := (UInt64.ofNat n.toInt.natAbs).toFloat
  number (if n.toInt < 0 then -magnitude else magnitude)

/-- `m · 2 ^ q` with what stands right of the point cut off. -/
def scaledFloor (m : Nat) (q : Int) : Nat :=
  if 0 ≤ q then m * Nat.pow 2 q.toNat else m / Nat.pow 2 (-q).toNat

/-- The integer left of the point; there is none for an infinity or a
not-a-number value. -/
def truncate? (x : Binary64) : Option Int :=
  match parts x with
  | .finite negative m q =>
    some (if negative then -(scaledFloor m q : Int) else scaledFloor m q)
  | _ => none

-- ---------------------------------------------------------------------------
-- Remainder
-- ---------------------------------------------------------------------------

/-- What `x` leaves when as many whole `y` as fit are taken away, with the sign
of `x`. The result is exact: both numbers are brought to the smaller of the two
exponents and divided as naturals. There is no remainder of an infinity or by
zero, and an infinite `y` fits into no finite `x`. -/
def remainder (x y : Binary64) : Binary64 :=
  match parts x, parts y with
  | .nan, _ => x
  | _, .nan => y
  | .finite negative m q, .finite _ n r =>
    if n = 0 then negativeNaN
    else
      let base := min q r
      let left := m * Nat.pow 2 (q - base).toNat
      let right := n * Nat.pow 2 (r - base).toNat
      ofParts negative (left % right) base
  | .finite .., .infinite _ => x
  | _, _ => negativeNaN

-- ---------------------------------------------------------------------------
-- Total order
-- ---------------------------------------------------------------------------

/-- The place of a number in the total order: bit patterns in order of their
magnitude, the negative ones in reverse below the positive ones. -/
def rank (x : Binary64) : Int :=
  if x.bits / signBit % 2 = 1 then -(x.bits % signBit : Nat) - 1 else x.bits

/-- Compares two numbers in the total order. -/
def compareTotal (x y : Binary64) : Ordering := compare (rank x) (rank y)

end SeqScript.Binary64
