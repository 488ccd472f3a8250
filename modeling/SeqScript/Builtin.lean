import SeqScript.Text.Quoted

/-!
# Functions that are always there

The table of functions every program can call: their names and how many
arguments they take. What they do is part of the evaluator.
-/

namespace SeqScript

/-- How many arguments a function takes. -/
inductive Arity where
  | exactly (n : Nat)
  | atLeast (n : Nat)
  deriving Repr, DecidableEq

namespace Arity

def accepts : Arity → Nat → Bool
  | exactly n, got => got == n
  | atLeast n, got => decide (n ≤ got)

/-- As it is said in messages. -/
def text : Arity → String
  | exactly n => toString n
  | atLeast n => "at least " ++ toString n

/-- As it is shown in the table. -/
def label : Arity → String
  | exactly n => "Exact(" ++ toString n ++ ")"
  | atLeast n => "AtLeast(" ++ toString n ++ ")"

end Arity

inductive Builtin where
  | print | play | len
  | mean | median | variance | stddev | sum | min | max
  | abs | sqrt
  | linreg | map | filter | rotate | shift
  deriving Repr, DecidableEq

namespace Builtin

/-- The table, in order. -/
def all : List Builtin :=
  [print, play, len, mean, median, variance, stddev, sum, min, max, abs, sqrt, linreg, map, filter,
    rotate, shift]

def name : Builtin → String
  | print => "print" | play => "play" | len => "len"
  | mean => "mean" | median => "median" | variance => "variance" | stddev => "stddev"
  | sum => "sum" | min => "min" | max => "max"
  | abs => "abs" | sqrt => "sqrt"
  | linreg => "linreg" | map => "map" | filter => "filter" | rotate => "rotate"
  | shift => "shift"

def ofName? (name : String) : Option Builtin := all.find? fun b => b.name == name

def arity : Builtin → Arity
  | print => .atLeast 0
  | linreg | map | filter | rotate | shift => .exactly 2
  | _ => .exactly 1

/-- An entry of the table. -/
def label (b : Builtin) : String :=
  "Builtin \x7b name: " ++ Text.quoted b.name ++ ", arity: " ++ b.arity.label ++ " \x7d"

end Builtin

end SeqScript
