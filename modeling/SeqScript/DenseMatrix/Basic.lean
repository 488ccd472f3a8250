/-!
# Dense matrices

A matrix of any cells: so many rows, each with so many cells. The operations ask
for nothing but what they compute with, so that the same definitions serve
floating-point cells when a program runs and exact cells when something is
proved. Sums run over the shared dimension upwards, starting from zero, and are
not reassociated.
-/

namespace SeqScript

/-- A matrix with its shape. -/
structure DenseMatrix (α : Type) where
  rows : Nat
  cols : Nat
  cells : Vector (Vector α cols) rows

namespace DenseMatrix

variable {α : Type}

/-- The cell in row `i` and column `j`. -/
def entry (m : DenseMatrix α) (i : Fin m.rows) (j : Fin m.cols) : α := m.cells[i][j]

/-- The matrix with given cells. -/
def ofFn (rows cols : Nat) (f : Fin rows → Fin cols → α) : DenseMatrix α :=
  ⟨rows, cols, Vector.ofFn fun i => Vector.ofFn fun j => f i j⟩

/-- The rows from top to bottom. -/
def toRows (m : DenseMatrix α) : List (List α) := m.cells.toList.map Vector.toList

/-- Row `i`, or nothing if there are not so many. -/
def row? (m : DenseMatrix α) (i : Nat) : Option (List α) := m.cells[i]?.map Vector.toList

/-- The matrix with given rows, if there is at least one and all are as long as
the first. -/
def ofRows? : List (List α) → Option (DenseMatrix α)
  | [] => none
  | first :: rest =>
    let all := first :: rest
    if h : ∀ r ∈ all, r.length = first.length then
      some {
        rows := all.length
        cols := first.length
        cells := Vector.ofFn fun i =>
          ⟨(all.get i).toArray, by simpa using h _ (List.get_mem all i)⟩ }
    else none

/-- One on the diagonal, zero elsewhere. -/
def identity [Zero α] [One α] (n : Nat) : DenseMatrix α :=
  ofFn n n fun i j => if i = j then 1 else 0

/-- Rows and columns exchanged. -/
def transpose (m : DenseMatrix α) : DenseMatrix α := ofFn m.cols m.rows fun i j => m.entry j i

/-- The sum, for matrices of one shape. -/
def add? [Add α] (a b : DenseMatrix α) : Option (DenseMatrix α) :=
  if h : a.rows = b.rows ∧ a.cols = b.cols then
    some (ofFn a.rows a.cols fun i j => a.entry i j + b.entry (i.cast h.1) (j.cast h.2))
  else none

/-- The sum of the products along the shared dimension. -/
def dot [Zero α] [Add α] [Mul α] (a b : DenseMatrix α) (h : a.cols = b.rows) (i : Fin a.rows)
    (j : Fin b.cols) : α :=
  (List.finRange a.cols).foldl (fun sum k => sum + a.entry i k * b.entry (k.cast h) j) 0

/-- The product, for matrices that share the inner dimension. -/
def multiply? [Zero α] [Add α] [Mul α] (a b : DenseMatrix α) : Option (DenseMatrix α) :=
  if h : a.cols = b.rows then some (ofFn a.rows b.cols (a.dot b h)) else none

/-- Whether two matrices have one shape and cells that agree pairwise. -/
def agree (same : α → α → Bool) (a b : DenseMatrix α) : Bool :=
  if h : a.rows = b.rows ∧ a.cols = b.cols then
    (List.finRange a.rows).all fun i =>
      (List.finRange a.cols).all fun j => same (a.entry i j) (b.entry (i.cast h.1) (j.cast h.2))
  else false

end DenseMatrix

end SeqScript
