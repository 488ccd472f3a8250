import SeqScript.Eval.Task
import SeqScript.Sequence.Statistics
import SeqScript.Value.Insertion

/-!
# Dotted operations

`subject.op(…)`. Three operations change their subject in place; so do `map` and
`filter` when asked to. All others make something new and, if the subject is a
variable `x`, also bind it to the name `x_op` in the current frame.

Everything that can be refused is checked before the first write, so a failed
operation leaves every sequence as it was.
-/

namespace SeqScript

open Run

namespace CollectionOp

/-- The elements of a subject that has to be a sequence. -/
def subject (op : CollectionOp) (line : Nat) (v : Value) : Run Snapshot :=
  sequence line (.dottedNeedsSequence op) v

/-- The elements of a subject that has to be a list. -/
def listSubject (op : CollectionOp) (line : Nat) (v : Value) : Run Snapshot := do
  match v with
  | .seq .list id => return ⟨.list, id, ← read id⟩
  | _ => fail line (.dottedNeedsList op v.kind)

/-- The elements of something whose statistics are taken or that is moved. -/
def argument (op : CollectionOp) (line : Nat) (v : Value) : Run Snapshot :=
  sequence line (.needsSequence op.name) v

/-- A number computed from a sequence. -/
def measure (op : CollectionOp) (line : Nat) (v : Value)
    (f : List Value → Except Cause Value) : Run Value := do
  let s ← op.argument line v
  charge line (f s.items)

/-- A sequence of the same kind computed from a sequence and an amount. -/
def moved (op : CollectionOp) (line : Nat) (v k : Value)
    (f : List Value → Int64 → List Value) : Run Value := do
  let s ← op.argument line v
  let n ← charge line (Sequence.amount op.name k)
  newSeq s.kind (f s.items n)

-- ---------------------------------------------------------------------------
-- Writing into a sequence
-- ---------------------------------------------------------------------------

/-- Replaces the elements of a store. -/
def replaceItems (line : Nat) (s : Snapshot) (declared : Option Ty) (items : List Value) :
    Run Unit := do
  let (items, h) ← charge line (insertable s.id declared items (← heap))
  setHeap (h.write s.id items.toArray)

/-- What `map` and `filter` do with their result: write it over the subject, or
make a sequence of the subject's kind of it. -/
def conclude (line : Nat) (subject : Value) (s : Snapshot) (mutate : Bool) (declared : Option Ty)
    (items : List Value) : Run Value := do
  if mutate then
    replaceItems line s declared items
    return subject
  else newSeq s.kind items

/-- A row of values sorted. -/
def sorted (line : Nat) (items : List Value) : Run (List Value) := do
  match ← charge line (Sequence.sort items) with
  | some row => return row
  | none => throw (.disorder items)

-- ---------------------------------------------------------------------------
-- Matrices
-- ---------------------------------------------------------------------------

/-- The sum of two matrices. -/
def matrixSum (a b : DenseMatrix Binary64) : Except Cause (DenseMatrix Binary64) :=
  match a.add? b with
  | some m => .ok m
  | none => .error (.badShape .add a.rows a.cols b.rows b.cols)

/-- The product of two matrices. -/
def matrixProduct (a b : DenseMatrix Binary64) : Except Cause (DenseMatrix Binary64) :=
  match a.multiply? b with
  | some m => .ok m
  | none => .error (.badShape .multiply a.cols b.cols b.rows b.cols)

/-- The inverse of a matrix. -/
def matrixInverse (a : DenseMatrix Binary64) : Except Cause (DenseMatrix Binary64) :=
  match a.invert with
  | .inverse m => .ok m
  | .notSquare => .error (.badShape .invert a.rows a.rows a.rows a.cols)
  | .singular => .error .singular

/-- A value that has to be a matrix or rows of numbers. -/
def matrixOf (line : Nat) (v : Value) : Run (DenseMatrix Binary64) := do
  charge line ((← heap).matrix? v)

-- ---------------------------------------------------------------------------
-- Applying
-- ---------------------------------------------------------------------------

/-- Applies an operation to arguments of the right number. `declared` is the
type the subject's variable was declared with. -/
def apply (self : Doer) (op : CollectionOp) (target : Value) (args : List Value) (mutate : Bool)
    (declared : Option Ty) (line : Nat) : Run Value :=
  match op, args with
  | sort, [] => do
    let s ← sort.subject line target
    let items ← sorted line s.items
    update s.id fun _ => items.toArray
    return target
  | append, [v] => do
    let s ← append.listSubject line target
    charge line (checkInsertion (← heap) s.id v)
    update s.id (·.push v)
    return target
  | remove, [v] => do
    let s ← remove.listSubject line target
    let rest ← charge line (Sequence.remove (← heap) v s.items)
    update s.id fun _ => rest.toArray
    return target
  | mean, [] => mean.measure line target fun xs => (Sequence.mean xs).map .float
  | median, [] => median.measure line target Sequence.median
  | variance, [] => variance.measure line target fun xs => (Sequence.variance xs).map .float
  | stddev, [] => stddev.measure line target fun xs => (Sequence.stddev xs).map .float
  | linreg, [v] => do
    let x ← linreg.argument line target
    let y ← linreg.argument line v
    let r ← charge line (Sequence.regression x.items y.items)
    newSeq .list r.values
  | map, [f] => do
    let s ← map.subject line target
    let items ← self.map f line s.items
    conclude line target s mutate declared items
  | filter, [f] => do
    let s ← filter.subject line target
    let items ← self.filter f line s.items
    conclude line target s mutate declared items
  | rotate, [k] => rotate.moved line target k Sequence.rotate
  | shift, [k] => shift.moved line target k Sequence.shift
  | add, [v] => do
    let a ← matrixOf line target
    let b ← matrixOf line v
    return .matrix (← charge line (matrixSum a b))
  | multiply, [v] => do
    let a ← matrixOf line target
    let b ← matrixOf line v
    return .matrix (← charge line (matrixProduct a b))
  | invert, [] => do
    let a ← matrixOf line target
    return .matrix (← charge line (matrixInverse a))
  | transpose, [] => do
    let a ← matrixOf line target
    return .matrix a.transpose
  | op, args => fail line (.operationArity op args.length)

-- ---------------------------------------------------------------------------
-- Evaluating
-- ---------------------------------------------------------------------------

/-- Whether the operation is to write over its subject. The only argument with
a name is `mutate`, and only `map` and `filter` take it; the last one counts. -/
def mutateFlag (self : Doer) (op : CollectionOp) (line : Nat) :
    Bool → List (String × Expr) → Run Bool
  | flag, [] => return flag
  | _, (name, e) :: rest => do
    if name = "mutate" ∧ (op = map ∨ op = filter) then
      match ← self.eval e with
      | .bool b => mutateFlag self op line b rest
      | v => fail line (.mutateNotBool v.kind)
    else fail line (.strangeArgument op name)

/-- Binds a result to the names derived from its subject's. -/
def bindDerived (op : CollectionOp) (name : String) (result : Value) : Run Unit := do
  define (name ++ "_" ++ op.name) result none
  if op = linreg then
    match result with
    | .seq _ id =>
      let parts ← read id
      defineAll ((["slope", "intercept", "r_squared"].map fun part => name ++ "_" ++ part).zip parts)
    | _ => return ()

/-- The declared type of a subject, if it is a variable that has one. -/
def subjectType : Expr → Run (Option Ty)
  | .ident name _ => declared? name
  | _ => return none

/-- Evaluates an operation. -/
def eval (self : Doer) (op : CollectionOp) (subject : Expr) (args : List Expr)
    (named : List (String × Expr)) (line : Nat) : Run Value := do
  let target ← self.eval subject
  if args.length ≠ op.arity then fail line (.operationArity op args.length)
  else
    let args ← self.evalAll args
    let mutate ← mutateFlag self op line false named
    let declared ← subjectType subject
    let result ← op.apply self target args mutate declared line
    match subject with
    | .ident name _ =>
      if op.isMutating || mutate then return result
      else
        bindDerived op name result
        return result
    | _ => return result

end CollectionOp

end SeqScript
