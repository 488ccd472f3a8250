import SeqScript.Binary64.Text
import SeqScript.DenseMatrix.Inverse
import SeqScript.Fault

/-!
# Values

Numbers, truth values, texts and matrices are values in themselves. A sequence,
array or list, is a reference to a store in the heap: two values with the same
reference share their elements. A function is its code together with the frame
it was created in; every evaluation of a `func` statement or a lambda creates a
new one, told apart by its number.
-/

namespace SeqScript

/-- A reference to a store of elements. -/
abbrev SeqId := Nat

/-- A reference to a frame of variables. -/
abbrev FrameId := Nat

/-- The two kinds of sequences. An array's elements are checked against its
declared type; a list takes anything and can grow and shrink. -/
inductive SeqKind where
  | array | list
  deriving Repr, DecidableEq

/-- A declared function. -/
structure FuncDecl where
  name : String
  params : List Param
  body : List Stmt

/-- What a function runs. -/
inductive Code where
  | declared (decl : FuncDecl)
  | lambda (param : String) (body : Expr)

/-- A function with the frame it was created in. -/
structure Closure where
  id : Nat
  code : Code
  frame : FrameId

def Closure.name (f : Closure) : String :=
  match f.code with
  | .declared decl => decl.name
  | .lambda .. => "<lambda>"

/-- A value. -/
inductive Value where
  | int (n : Int64)
  | float (x : Binary64)
  | bool (b : Bool)
  | str (s : String)
  | seq (kind : SeqKind) (id : SeqId)
  | matrix (m : DenseMatrix Binary64)
  | func (f : Closure)
  | builtin (b : Builtin)
  | unit

namespace Value

instance : Inhabited Value := ⟨unit⟩

def kind : Value → Kind
  | int _ => .int
  | float _ => .float
  | bool _ => .bool
  | str _ => .string
  | seq .array _ => .array
  | seq .list _ => .list
  | matrix _ => .matrix
  | func _ => .func
  | builtin _ => .builtin
  | unit => .unit

/-- The value of a literal. -/
def ofLiteral : Literal → Value
  | .int n => int n
  | .float x => float x
  | .bool b => bool b
  | .str s => str s

/-- The number a numeric value stands for. -/
def number? : Value → Option Binary64
  | int n => some (Binary64.ofWord n)
  | float x => some x
  | _ => none

def isNumeric (v : Value) : Bool := v.number?.isSome

def isFloat : Value → Bool
  | float _ => true
  | _ => false

/-- Whether a value can be called. -/
def isCallable : Value → Bool
  | func _ | builtin _ => true
  | _ => false

/-- The store of a sequence. -/
def store? : Value → Option SeqId
  | seq _ id => some id
  | _ => none

end Value

-- ---------------------------------------------------------------------------
-- Matrices of numbers
-- ---------------------------------------------------------------------------

/-- Magnitudes below this are taken for zero when a matrix is inverted. -/
def singularityThreshold : Binary64 := 1e-12

/-- Elimination on numbers. Magnitudes are compared in the total order, where a
not-a-number cell is above all others. -/
instance : Pivoting Binary64 where
  zero := 0.0
  one := 1.0
  exceeds x y := x.abs.compareTotal y.abs == .gt
  negligible x := x.abs.below singularityThreshold
  isZero x := x.isZero

/-- Cells compared as numbers. -/
def DenseMatrix.equal (a b : DenseMatrix Binary64) : Bool := a.agree Binary64.equals b

/-- Cells that differ by at most `eps`. -/
def DenseMatrix.isNear (eps : Binary64) (a b : DenseMatrix Binary64) : Bool :=
  a.agree (fun x y => (x - y).abs.atMost eps) b

/-- A matrix as text, row by row. -/
def DenseMatrix.text (m : DenseMatrix Binary64) : String :=
  let line (row : List Binary64) := "[" ++ ", ".intercalate (row.map Binary64.text) ++ "]"
  "[" ++ ", ".intercalate (m.toRows.map line) ++ "]"

end SeqScript
