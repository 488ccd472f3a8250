import SeqScript.Value.Equality
import SeqScript.Word

/-!
# Operators

Arithmetic and comparison of values. Two integers are combined exactly, and a
result that is no 64-bit integer is refused; any other two numbers are combined
as floating-point numbers. Equality is defined for all pairs of values and never
fails. `and` and `or` take truth values here; that they may leave their right
operand alone is the evaluator's business.

`sortOrder` is the order in which sequences are sorted. It tells more numbers
apart than `<` does, so that every two of them can be compared.
-/

namespace SeqScript

namespace Word

/-- The exact result of an operation on two integers, if it is a word; nothing
for operators that are not arithmetic. Division cuts off toward zero, and the
remainder has the sign of the left operand; it is refused along with the
quotient. -/
def combine? (op : BinaryOp) (a b : Int64) : Option Int64 :=
  match op with
  | .add => ofInt? (a.toInt + b.toInt)
  | .sub => ofInt? (a.toInt - b.toInt)
  | .mul => ofInt? (a.toInt * b.toInt)
  | .div => ofInt? (a.toInt.tdiv b.toInt)
  | .mod => (ofInt? (a.toInt.tdiv b.toInt)).bind fun _ => ofInt? (a.toInt.tmod b.toInt)
  | _ => none

/-- Arithmetic on integers. -/
def arithmetic (op : BinaryOp) (a b : Int64) : Except Cause Int64 :=
  if (op = .div ∨ op = .mod) ∧ b = 0 then .error .divisionByZero
  else
    match combine? op a b with
    | some n => .ok n
    | none => .error (.overflow op a b)

end Word

namespace Value

/-- Arithmetic on floating-point numbers. -/
def floatArithmetic? (op : BinaryOp) (x y : Binary64) : Option Binary64 :=
  match op with
  | .add => some (x + y)
  | .sub => some (x - y)
  | .mul => some (x * y)
  | .div => some (x / y)
  | .mod => some (x.remainder y)
  | _ => none

/-- Arithmetic on two values that are not both integers. -/
def mixedArithmetic (op : BinaryOp) (l r : Value) : Except Cause Value :=
  let refused := Except.error (.badOperands op l.kind r.kind)
  match l.number?, r.number? with
  | some x, some y =>
    match floatArithmetic? op x y with
    | some z => .ok (.float z)
    | none => refused
  | _, _ => refused

/-- The arithmetic operators. Texts can be added. -/
def arithmetic (op : BinaryOp) : Value → Value → Except Cause Value
  | .int a, .int b => (Word.arithmetic op a b).map Value.int
  | .str a, .str b =>
    if op = .add then .ok (.str (a ++ b)) else .error (.badOperands op .string .string)
  | l, r => mixedArithmetic op l r

/-- How two floating-point numbers compare; not at all if one is not a number. -/
def compareFloats? (x y : Binary64) : Option Ordering :=
  if x.below y then some .lt else if x.equals y then some .eq
  else if y.below x then some .gt else none

/-- Whether an ordering is what a comparison operator asks for. -/
def holds (op : BinaryOp) (o : Ordering) : Bool :=
  match op with
  | .lt => o == .lt
  | .le => o != .gt
  | .gt => o == .gt
  | .ge => o != .lt
  | _ => false

/-- The comparison operators. Nothing compares with a not-a-number value. -/
def comparison (op : BinaryOp) : Value → Value → Except Cause Value
  | .int a, .int b => .ok (.bool (holds op (compare a.toInt b.toInt)))
  | .str a, .str b => .ok (.bool (holds op (compare a b)))
  | l, r =>
    match l.number?, r.number? with
    | some x, some y =>
      .ok (.bool (match compareFloats? x y with
        | some o => holds op o
        | none => false))
    | _, _ => .error (.badOperands op l.kind r.kind)

/-- `and` and `or` on two values at hand. -/
def logic (op : BinaryOp) : Value → Value → Except Cause Value
  | .bool a, .bool b => .ok (.bool (if op = .and then a && b else a || b))
  | l, r => .error (.badOperands op l.kind r.kind)

/-- The binary operators. -/
def binary (h : Heap) (op : BinaryOp) (l r : Value) : Except Cause Value :=
  match op with
  | .eq => .ok (.bool (h.equal l r))
  | .ne => .ok (.bool (!h.equal l r))
  | .lt | .le | .gt | .ge => comparison op l r
  | .add | .sub | .mul | .div | .mod => arithmetic op l r
  | .and | .or => logic op l r

/-- The unary operators. -/
def unary : UnaryOp → Value → Except Cause Value
  | .negate, .int n =>
    match Word.ofInt? (-n.toInt) with
    | some m => .ok (.int m)
    | none => .error .negationOverflow
  | .negate, .float x => .ok (.float (-x))
  | .negate, v => .error (.badNegation v.kind)
  | .not, .bool b => .ok (.bool !b)
  | .not, v => .error (.badNot v.kind)

-- ---------------------------------------------------------------------------
-- Order
-- ---------------------------------------------------------------------------

/-- The order in which values are sorted: integers exactly, other pairs of
numbers in the total order of floating-point numbers, texts by their code
points, `false` before `true`. -/
def sortOrder : Value → Value → Except Cause Ordering
  | .int a, .int b => .ok (compare a.toInt b.toInt)
  | .str a, .str b => .ok (compare a b)
  | .bool a, .bool b => .ok (compare a b)
  | a, b =>
    match a.number?, b.number? with
    | some x, some y => .ok (x.compareTotal y)
    | _, _ => .error (.unordered a.kind b.kind)

end Value

end SeqScript
