import SeqScript.DenseMatrix.Basic

/-!
# Inverse matrices

Elimination with partial pivoting. Beside the matrix to invert, which is reduced
to the identity column by column, runs a second one that starts as the identity
and undergoes the same row operations; it ends as the inverse.

What the elimination asks of its cells is the class `Pivoting`: the arithmetic,
a comparison of magnitudes for the choice of the pivot, and two tests, for a
pivot too small to divide by and for a factor that is zero and needs no work.
-/

namespace SeqScript

/-- Cells on which elimination can be run. -/
class Pivoting (α : Type) extends Zero α, One α, Add α, Sub α, Mul α, Div α where
  /-- Whether the first cell has a greater magnitude than the second. -/
  exceeds : α → α → Bool
  /-- Whether a cell is too small in magnitude to be divided by. -/
  negligible : α → Bool
  isZero : α → Bool

namespace DenseMatrix

/-- A square block of cells. -/
abbrev Square (α : Type) (n : Nat) := Vector (Vector α n) n

/-- The matrix under reduction and the one that follows it. -/
structure Reduction (α : Type) (n : Nat) where
  work : Square α n
  inverse : Square α n

variable {α : Type} {n : Nat} [Pivoting α]

/-- The row, from `col` down, with the cell of greatest magnitude in column
`col`; the lowest of equal ones. -/
def pivotRow (a : Square α n) (col : Fin n) : Fin n :=
  ((List.finRange n).filter fun r => col < r).foldl
    (fun best r => if Pivoting.exceeds a[best][col] a[r][col] then best else r) col

/-- Two rows exchanged. -/
def swapRows (a : Square α n) (i j : Fin n) : Square α n := a.swap i j

/-- One row divided by a cell. -/
def divideRow (a : Square α n) (i : Fin n) (p : α) : Square α n :=
  a.set i (a[i].map (· / p))

/-- A multiple of row `col` taken away from row `r`. -/
def subtractRow (a : Square α n) (factor : α) (col r : Fin n) : Vector α n :=
  a[r].zipWith (fun x y => x - factor * y) a[col]

/-- A multiple of row `col` taken away from every other row, the factors being
read from a column of cells. -/
def clearRows (a : Square α n) (factors : Vector α n) (col : Fin n) : Square α n :=
  Vector.ofFn fun r =>
    if r = col then a[r]
    else if Pivoting.isZero factors[r] then a[r]
    else subtractRow a factors[r] col r

/-- Brings column `col` to the identity's, or finds no pivot for it. -/
def reduceColumn (s : Reduction α n) (col : Fin n) : Option (Reduction α n) :=
  let pivot := pivotRow s.work col
  if Pivoting.negligible s.work[pivot][col] then none
  else
    let work := swapRows s.work pivot col
    let inverse := swapRows s.inverse pivot col
    let p := work[col][col]
    let work := divideRow work col p
    let inverse := divideRow inverse col p
    let factors := work.map fun row => row[col]
    some ⟨clearRows work factors col, clearRows inverse factors col⟩

/-- The inverse of a square block, unless a column has no pivot. -/
def invertSquare? (a : Square α n) : Option (Square α n) :=
  let start : Reduction α n :=
    ⟨a, Vector.ofFn fun i => Vector.ofFn fun j => if i = j then 1 else 0⟩
  ((List.finRange n).foldlM reduceColumn start).map Reduction.inverse

/-- What inverting a matrix gives. -/
inductive Inversion (α : Type) where
  | inverse (m : DenseMatrix α)
  | notSquare
  | singular

/-- Inverts a matrix. -/
def invert (m : DenseMatrix α) : Inversion α :=
  if h : m.cols = m.rows then
    match invertSquare? (m.cells.map (Vector.cast h)) with
    | some a => .inverse ⟨m.rows, m.rows, a⟩
    | none => .singular
  else .notSquare

end DenseMatrix

end SeqScript
