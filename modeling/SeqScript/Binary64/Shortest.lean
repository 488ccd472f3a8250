import SeqScript.Binary64.Parts

/-!
# The fewest digits that read back

Every binary64 number stands for an interval of reals: those that round to it.
Among the decimals in that interval there are some with the fewest digits, and
of these the one nearest to the number is its decimal form. This module finds
it by search: on the grid of decimals with one digit, then with two, and so on,
it tests the two grid points next to the number. If any point of a grid lies in
the interval, one of these two does, so the first grid with a hit has the
fewest digits. Everything is compared as naturals, cross-multiplied.
-/

namespace SeqScript.Binary64

/-- The decimal `digits · 10 ^ exponent`. -/
structure Decimal where
  digits : Nat
  exponent : Int
  deriving Repr, DecidableEq

/-- A positive rational, numerator over denominator. -/
structure Ratio where
  num : Nat
  den : Nat

/-- `b ^ e` for an integer exponent. -/
def Ratio.power (b : Nat) (e : Int) : Ratio :=
  if 0 ≤ e then ⟨b.pow e.toNat, 1⟩ else ⟨1, b.pow (-e).toNat⟩

/-- The interval of reals that round to a number, in quarters of a step of its
significand: the number itself is `4 m`, its upper end `4 m + 2`. The lower end
is `4 m - 2`, or `4 m - 1` below a power of two, where the steps are half as
wide. Both ends belong to it if the significand is even. -/
structure Neighbourhood where
  low : Nat
  value : Nat
  high : Nat
  /-- The length of a quarter step. -/
  unit : Ratio
  closed : Bool

/-- The neighbourhood of `m · 2 ^ q`. -/
def Neighbourhood.of (m : Nat) (q : Int) : Neighbourhood where
  low := if m = hiddenBit ∧ leastExponent < q then 4 * m - 1 else 4 * m - 2
  value := 4 * m
  high := 4 * m + 2
  unit := Ratio.power 2 (q - 2)
  closed := m % 2 == 0

/-- Whether `c` grid steps lie in the neighbourhood. -/
def Neighbourhood.holds (n : Neighbourhood) (grid : Ratio) (c : Nat) : Bool :=
  let point := c * grid.num * n.unit.den
  let low := n.low * n.unit.num * grid.den
  let high := n.high * n.unit.num * grid.den
  if n.closed then decide (low ≤ point) && decide (point ≤ high)
  else decide (low < point) && decide (point < high)

/-- The grid point of the neighbourhood nearest to its number, if the grid has
one there. Of two points equally near the upper one is taken. -/
def Neighbourhood.nearest? (n : Neighbourhood) (grid : Ratio) : Option Nat :=
  let whole := n.value * n.unit.num * grid.den
  let step := grid.num * n.unit.den
  let c := whole / step
  let rest := whole % step
  match n.holds grid c, n.holds grid (c + 1) with
  | true, true => some (if 2 * rest < step then c else c + 1)
  | true, false => some c
  | false, true => some (c + 1)
  | false, false => none

/-- Whether the number of the neighbourhood is at least `10 ^ e`. -/
def Neighbourhood.reaches (n : Neighbourhood) (e : Int) : Bool :=
  let power := Ratio.power 10 e
  decide (power.num * n.unit.den ≤ n.value * n.unit.num * power.den)

/-- The exponent of the leading digit: the greatest `e` with `10 ^ e` at most
the number. It is searched from the estimate downwards. -/
def Neighbourhood.leading (n : Neighbourhood) : Nat → Int → Int
  | 0, e => e
  | tries + 1, e => if n.reaches e then e else n.leading tries (e - 1)

/-- The first hit on grids that put `count`, `count + 1`, … digits from the
leading one on. -/
def Neighbourhood.search (n : Neighbourhood) (leading : Int) : Nat → Nat → Decimal
  | 0, _ => ⟨0, 0⟩
  | tries + 1, count =>
    let exponent := leading - count + 1
    match n.nearest? (Ratio.power 10 exponent) with
    | some c => ⟨c, exponent⟩
    | none => n.search leading tries (count + 1)

/-- Zeros at the end of the digits moved into the exponent. -/
def Decimal.trimmed : Nat → Decimal → Decimal
  | 0, d => d
  | steps + 1, d =>
    if d.digits ≠ 0 ∧ d.digits % 10 = 0 then trimmed steps ⟨d.digits / 10, d.exponent + 1⟩ else d

/-- The shortest decimal of `m · 2 ^ q`. Seventeen digits always suffice. -/
def shortest (m : Nat) (q : Int) : Decimal :=
  if m = 0 then ⟨0, 0⟩
  else
    let n := Neighbourhood.of m q
    -- The number is below `2 ^ top`. As log10 2 = 0.30103, the guess is never below the
    -- leading exponent, and at most eleven above it.
    let top := q + m.log2 + 1
    let guess := if 0 ≤ top then top * 31 / 100 + 1 else top * 30 / 100 + 1
    (n.search (n.leading 20 guess) 17 1).trimmed 20

end SeqScript.Binary64
