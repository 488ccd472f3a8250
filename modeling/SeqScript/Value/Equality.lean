import SeqScript.Heap

/-!
# Equality of values

Equality is defined for all pairs of values. Integers are compared exactly, other
pairs of numbers as numbers, functions by identity. Sequences are equal if they
share their store, or else if they are equally long and equal place by place;
array or list makes no difference. A matrix equals a sequence of its rows.

A comparison goes at most as deep as there are stores. As no sequence is ever
nested in itself, a path of references meets a store at most once, so the bound
cuts nothing off.
-/

namespace SeqScript

namespace Value

/-- The numbers of a row, or the first element that is none. -/
def entries? : List Value → Except Cause (List Binary64)
  | [] => .ok []
  | v :: vs => do
    match v.number? with
    | none => .error (.badEntry v.kind)
    | some x => return x :: (← entries? vs)

/-- Equality of values that are no sequences. -/
def plainEqual : Value → Value → Bool
  | int a, int b => a == b
  | bool a, bool b => a == b
  | str a, str b => a == b
  | unit, unit => true
  | func f, func g => f.id == g.id
  | builtin f, builtin g => f == g
  | matrix a, matrix b => a.equal b
  | a, b =>
    match a.number?, b.number? with
    | some x, some y => x.equals y
    | _, _ => false

end Value

namespace Heap

-- ---------------------------------------------------------------------------
-- Sequences taken as matrices
-- ---------------------------------------------------------------------------

/-- The rows of a matrix, each as long as `width` once that is known. -/
def matrixRows? (h : Heap) : Option Nat → List Value → Except Cause (List (List Binary64))
  | _, [] => .ok []
  | width, .seq _ id :: rows => do
    let items := (h.read id).toList
    let width := width.getD items.length
    if items.length ≠ width then .error (.ragged width items.length)
    else
      let row ← Value.entries? items
      return row :: (← h.matrixRows? (some width) rows)
  | _, v :: _ => .error (.badRow v.kind)

/-- A matrix, or a rectangular sequence of rows of numbers taken as one. -/
def matrix? (h : Heap) : Value → Except Cause (DenseMatrix Binary64)
  | .matrix m => .ok m
  | .seq _ id => do
    match ← h.matrixRows? none (h.read id).toList with
    | [] | [] :: _ => .error .emptyMatrix
    | rows =>
      match DenseMatrix.ofRows? rows with
      | some m => .ok m
      | none => .error .emptyMatrix
  | v => .error (.notMatrix v.kind)

/-- Whether a value is a given matrix. -/
def isMatrix (h : Heap) (m : DenseMatrix Binary64) (v : Value) : Bool :=
  match h.matrix? v with
  | .ok other => m.equal other
  | .error _ => false

-- ---------------------------------------------------------------------------
-- Equality
-- ---------------------------------------------------------------------------

/-- Whether two rows are equally long and agree place by place. -/
def pairwise (same : Value → Value → Bool) : List Value → List Value → Bool
  | [], [] => true
  | v :: vs, w :: ws => same v w && pairwise same vs ws
  | _, _ => false

/-- Equality, going at most so many references deep. -/
def equalWithin (h : Heap) : Nat → Value → Value → Bool
  | 0, .seq _ a, .seq _ b => a == b
  | depth + 1, .seq _ a, .seq _ b =>
    a == b || pairwise (h.equalWithin depth) (h.read a).toList (h.read b).toList
  | _, .matrix m, .seq kind id => h.isMatrix m (.seq kind id)
  | _, .seq kind id, .matrix m => h.isMatrix m (.seq kind id)
  | _, v, w => v.plainEqual w

/-- Whether two values are equal. -/
def equal (h : Heap) (v w : Value) : Bool := h.equalWithin (h.size + 1) v w

end Heap

end SeqScript
