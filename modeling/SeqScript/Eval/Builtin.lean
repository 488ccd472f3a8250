import SeqScript.Eval.Task
import SeqScript.Sequence.Statistics

/-!
# What the functions do that are always there

Printing and playing, lengths and magnitudes, and the statistics and transforms
of sequences as plain functions. None of them binds a name or changes a
sequence.
-/

namespace SeqScript

namespace Builtin

open Run

/-- The elements of an argument that has to be a sequence. -/
def argument (b : Builtin) (line : Nat) (v : Value) : Run Snapshot :=
  sequence line (.needsSequence b.name) v

/-- The length of a sequence, a matrix or a text. -/
def length (line : Nat) (v : Value) : Run Value := do
  match v with
  | .seq _ id => return .int (Int64.ofNat (← read id).length)
  | .str s => return .int (Int64.ofNat s.length)
  | .matrix m => return .int (Int64.ofNat m.rows)
  | _ => fail line (.needsLength v.kind)

/-- The magnitude of a number. -/
def magnitude : Value → Except Cause Value
  | .int n =>
    match Word.ofInt? n.toInt.natAbs with
    | some m => .ok (.int m)
    | none => .error .absOverflow
  | .float x => .ok (.float x.abs)
  | v => .error (.needsNumber "abs" v.kind)

def squareRoot (v : Value) : Except Cause Value :=
  match v.number? with
  | some x => .ok (.float x.sqrt)
  | none => .error (.needsNumber "sqrt" v.kind)

/-- A number computed from a sequence. -/
def measure (b : Builtin) (line : Nat) (v : Value)
    (f : List Value → Except Cause Value) : Run Value := do
  let s ← b.argument line v
  charge line (f s.items)

/-- A sequence of the same kind computed from a sequence and an amount. -/
def moved (b : Builtin) (line : Nat) (v k : Value)
    (f : List Value → Int64 → List Value) : Run Value := do
  let s ← b.argument line v
  let n ← charge line (Sequence.amount b.name k)
  newSeq s.kind (f s.items n)

/-- Runs a function on arguments of the right number. -/
def apply (self : Doer) (b : Builtin) (args : List Value) (line : Nat) : Run Value :=
  match b, args with
  | print, vs => do
    Run.print vs
    return .unit
  | play, [v] => do
    let s ← play.argument line v
    let _ ← charge line (Sequence.numbers "play" s.items)
    Run.play s.items
    return .unit
  | len, [v] => length line v
  | mean, [v] => mean.measure line v fun xs => (Sequence.mean xs).map .float
  | median, [v] => median.measure line v Sequence.median
  | variance, [v] => variance.measure line v fun xs => (Sequence.variance xs).map .float
  | stddev, [v] => stddev.measure line v fun xs => (Sequence.stddev xs).map .float
  | sum, [v] => sum.measure line v Sequence.sum
  | min, [v] => min.measure line v Sequence.least
  | max, [v] => max.measure line v Sequence.greatest
  | abs, [v] => charge line (magnitude v)
  | sqrt, [v] => charge line (squareRoot v)
  | linreg, [v, w] => do
    let x ← linreg.argument line v
    let y ← linreg.argument line w
    let r ← charge line (Sequence.regression x.items y.items)
    newSeq .list r.values
  | map, [v, f] => do
    let s ← map.argument line v
    newSeq s.kind (← self.map f line s.items)
  | filter, [v, f] => do
    let s ← filter.argument line v
    newSeq s.kind (← self.filter f line s.items)
  | rotate, [v, k] => rotate.moved line v k Sequence.rotate
  | shift, [v, k] => shift.moved line v k Sequence.shift
  | b, args => fail line (.builtinArity b.name b.arity args.length)

/-- Calls a function. -/
def call (self : Doer) (b : Builtin) (args : List Value) (line : Nat) : Run Value :=
  if b.arity.accepts args.length then b.apply self args line
  else fail line (.builtinArity b.name b.arity args.length)

end Builtin

end SeqScript
