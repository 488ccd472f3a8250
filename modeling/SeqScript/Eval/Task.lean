import SeqScript.Machine

/-!
# Tasks

What the machine can be asked to do: evaluate an expression, execute a
statement, call a value. Each gives a value. The evaluator is one recursive
function on tasks. The modules beside this one say, without recursion, what a
task comes down to; they take the evaluator itself as an argument, of type
`Doer`, and hand it the smaller tasks.
-/

namespace SeqScript

/-- Something to do that gives a value. -/
inductive Task where
  /-- Evaluate an expression. The hint is the type it will be stored under;
  it tells array literals whether to make arrays or lists. -/
  | eval (hint : Option Ty) (e : Expr)
  /-- Execute a statement. -/
  | exec (s : Stmt)
  /-- Call a value; the line is charged with what goes wrong. -/
  | call (f : Value) (args : List Value) (line : Nat)

/-- A way to do tasks. -/
abbrev Doer := Task → Run Value

namespace Run

/-- A sequence as it is at some moment: its kind, its store and its elements. -/
structure Snapshot where
  kind : SeqKind
  id : SeqId
  items : List Value

/-- A value that has to be a sequence. -/
def sequence (line : Nat) (cause : Kind → Cause) (v : Value) : Run Snapshot := do
  match v with
  | .seq kind id => return ⟨kind, id, ← read id⟩
  | _ => fail line (cause v.kind)

end Run

namespace Doer

variable (self : Doer)

/-- Evaluates an expression. -/
def eval (e : Expr) : Run Value := self (.eval none e)

/-- Evaluates expressions from left to right. -/
def evalAll : List Expr → Run (List Value)
  | [] => return []
  | e :: es => do
    let v ← self.eval e
    return v :: (← evalAll es)

/-- Calls `f` on each of a row of values. -/
def mapItems (f : Value) (line : Nat) : List Value → Run (List Value)
  | [] => return []
  | v :: vs => do
    let w ← self (.call f [v] line)
    return w :: (← mapItems f line vs)

/-- The values of a row on which `f` is true. -/
def filterItems (f : Value) (line : Nat) : List Value → Run (List Value)
  | [] => return []
  | v :: vs => do
    match ← self (.call f [v] line) with
    | .bool true => return v :: (← filterItems f line vs)
    | .bool false => filterItems f line vs
    | other => Run.fail line (.predicateNotBool other.kind)

/-- `map` on a row of values taken before the first call. -/
def map (f : Value) (line : Nat) (items : List Value) : Run (List Value) :=
  if f.isCallable then self.mapItems f line items
  else Run.fail line (.needsFunction "map" f.kind)

/-- `filter` on a row of values taken before the first call. -/
def filter (f : Value) (line : Nat) (items : List Value) : Run (List Value) :=
  if f.isCallable then self.filterItems f line items
  else Run.fail line (.needsFunction "filter" f.kind)

end Doer

end SeqScript
