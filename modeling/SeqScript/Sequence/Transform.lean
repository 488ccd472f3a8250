import SeqScript.Sequence.StableSort
import SeqScript.Value.Datum
import SeqScript.Value.Operators

/-!
# Transforms of sequences

Rotating, shifting and sorting rows of values, and taking a value out.
-/

namespace SeqScript.Sequence

/-- The amount of a rotation or shift. -/
def amount (function : String) : Value → Except Cause Int64
  | .int n => .ok n
  | v => .error (.amountNotInt function v.kind)

/-- The last `k` elements moved to the front; a negative `k` moves the first
ones to the end. -/
def rotate {α : Type} (xs : List α) (k : Int64) : List α :=
  let split := xs.length - (k.toInt % xs.length).toNat
  xs.drop split ++ xs.take split

/-- What moves in where a shift leaves room: zero, as a floating-point number
if the row has one. -/
def fill (xs : List Value) : Value := if xs.any Value.isFloat then .float 0.0 else .int 0

/-- The elements moved `k` places toward the end, or toward the front for a
negative `k`; those that fall off are lost. Places count modulo the length. -/
def shift (xs : List Value) (k : Int64) : List Value :=
  if xs.isEmpty then []
  else
    let m := k.toInt.natAbs % xs.length
    let zeros := List.replicate m (fill xs)
    if 0 ≤ k.toInt then zeros ++ xs.take (xs.length - m) else xs.drop m ++ zeros

-- ---------------------------------------------------------------------------
-- Sorting
-- ---------------------------------------------------------------------------

/-- Whether a value stands before another in sorted order. -/
def sortsBefore (a b : Value) : Bool :=
  match a.sortOrder b with
  | .ok o => o == .lt
  | .error _ => false

/-- Checks that the first of a row can be ordered with all others. -/
def checkOrdered (first : Value) : List Value → Except Cause Unit
  | [] => .ok ()
  | v :: vs => do
    let _ ← first.sortOrder v
    checkOrdered first vs

/-- A row of values sorted, if they can be ordered. There is no row if it turns out that
their order contradicts itself. -/
def sort (xs : List Value) : Except Cause (Option (List Value)) := do
  match xs with
  | [] => return some []
  | first :: rest =>
    checkOrdered first rest
    return (arrange sortsBefore xs).map fun places => places.map xs.get

-- ---------------------------------------------------------------------------
-- Removing
-- ---------------------------------------------------------------------------

/-- The row without the first value equal to `target`. -/
def removeFirst? (h : Heap) (target : Value) : List Value → Option (List Value)
  | [] => none
  | v :: vs => if h.equal v target then some vs else (removeFirst? h target vs).map (v :: ·)

/-- The row without the first value equal to `target`, if it has one. -/
def remove (h : Heap) (target : Value) (xs : List Value) : Except Cause (List Value) :=
  match removeFirst? h target xs with
  | some rest => .ok rest
  | none => .error (.notFound (h.text target))

end SeqScript.Sequence
