import SeqScript.Sequence.Transform

/-!
# Statistics

Means, medians, spreads, sums, extremes and the line of best fit of rows of
numbers. Variance and standard deviation are those of a whole population. Sums
of floating-point numbers run from left to right, starting from minus zero,
which leaves every first term as it is.
-/

namespace SeqScript.Sequence

/-- The numbers of a row, or the first element that is none. -/
def numbers (function : String) : List Value → Except Cause (List Binary64)
  | [] => .ok []
  | v :: vs => do
    match v.number? with
    | none => .error (.needsNumbers function v.kind)
    | some x => return x :: (← numbers function vs)

/-- The numbers of a row that has at least one. -/
def someNumbers (function : String) (xs : List Value) : Except Cause (List Binary64) := do
  let ys ← numbers function xs
  if ys.isEmpty then .error (.emptySequence function) else return ys

def floatSum (xs : List Binary64) : Binary64 := xs.foldl (· + ·) (-0.0)

/-- The number of elements, as a floating-point number. -/
def count {α : Type} (xs : List α) : Binary64 := .number (UInt64.ofNat xs.length).toFloat

def average (xs : List Binary64) : Binary64 := floatSum xs / count xs

def square (x : Binary64) : Binary64 := x * x

/-- The squared distances from a center, added up. -/
def squaredSpread (center : Binary64) (xs : List Binary64) : Binary64 :=
  floatSum (xs.map fun x => square (x - center))

def mean (xs : List Value) : Except Cause Binary64 := return average (← someNumbers "mean" xs)

/-- The mean squared distance from the mean. -/
def spread (xs : List Binary64) : Binary64 := squaredSpread (average xs) xs / count xs

def variance (xs : List Value) : Except Cause Binary64 := return spread (← someNumbers "variance" xs)

def stddev (xs : List Value) : Except Cause Binary64 :=
  return (spread (← someNumbers "stddev" xs)).sqrt

/-- Whether a value is below another as a number, in the total order. -/
def numericallyBefore (a b : Value) : Bool :=
  match a.number?, b.number? with
  | some x, some y => x.compareTotal y == .lt
  | _, _ => false

/-- The number of a value that is known to be one. -/
def numberOf (v : Value) : Binary64 := v.number?.getD Binary64.nan

/-- The element in the middle of the sorted row, as it is; for an even number
of elements the mean of the two in the middle. Numbers are compared by an order,
so that it does not matter how the row is sorted. -/
def median (xs : List Value) : Except Cause Value := do
  let _ ← someNumbers "median" xs
  let sorted := sortBy numericallyBefore xs
  let n := sorted.length
  if n % 2 = 1 then return sorted.getD (n / 2) .unit
  else
    let low := numberOf (sorted.getD (n / 2 - 1) .unit)
    let high := numberOf (sorted.getD (n / 2) .unit)
    return .float ((low + high) / 2.0)

/-- The integers of a row that holds nothing else. -/
def integers? : List Value → Option (List Int64)
  | [] => some []
  | .int n :: vs => (integers? vs).map (n :: ·)
  | _ :: _ => none

/-- The sum of integers, as long as every partial sum is a 64-bit integer. -/
def integerSum (xs : List Int64) : Option Int64 :=
  xs.foldlM (fun total n => Word.ofInt? (total.toInt + n.toInt)) 0

/-- The sum of a row: an integer if all elements are. -/
def sum (xs : List Value) : Except Cause Value :=
  match integers? xs with
  | some ns =>
    match integerSum ns with
    | some total => .ok (.int total)
    | none => .error .sumOverflow
  | none => do return .float (floatSum (← numbers "sum" xs))

/-- The first element that no later one beats, going through a row with the
best element so far. -/
def best (beats : Binary64 → Binary64 → Bool) (champion : Value) : List Value → Value
  | [] => champion
  | v :: vs =>
    if beats (numberOf v) (numberOf champion) then best beats v vs else best beats champion vs

/-- The least or greatest element of a row, as it is; of equal ones the first. -/
def extreme (function : String) (beats : Binary64 → Binary64 → Bool) (xs : List Value) :
    Except Cause Value := do
  let _ ← someNumbers function xs
  match xs with
  | [] => .error (.emptySequence function)
  | v :: vs => return best beats v vs

def least (xs : List Value) : Except Cause Value := extreme "min" Binary64.below xs

def greatest (xs : List Value) : Except Cause Value := extreme "max" (fun x y => y.below x) xs

-- ---------------------------------------------------------------------------
-- Line of best fit
-- ---------------------------------------------------------------------------

/-- The line of least squares, and how well it fits. -/
structure Regression where
  slope : Binary64
  intercept : Binary64
  rSquared : Binary64

/-- The line through points with the given coordinates. A row of equal `y` is
fit exactly by a level line. -/
def regression (x y : List Value) : Except Cause Regression := do
  let xs ← numbers "linreg" x
  let ys ← numbers "linreg" y
  if xs.length ≠ ys.length then .error (.unequalLengths xs.length ys.length)
  else if xs.length < 2 then .error .tooFewPoints
  else
    let meanX := average xs
    let meanY := average ys
    let spreadX := squaredSpread meanX xs
    let shared := floatSum (xs.zipWith (fun x y => (x - meanX) * (y - meanY)) ys)
    if spreadX.isZero then .error .tooFewDistinct
    else
      let slope := shared / spreadX
      let intercept := meanY - slope * meanX
      let total := squaredSpread meanY ys
      let left := floatSum (xs.zipWith (fun x y => square (y - (slope * x + intercept))) ys)
      let rSquared := if total.isZero then 1.0 else 1.0 - left / total
      return ⟨slope, intercept, rSquared⟩

/-- The three numbers of a line, in order. -/
def Regression.values (r : Regression) : List Value :=
  [.float r.slope, .float r.intercept, .float r.rSquared]

end SeqScript.Sequence
