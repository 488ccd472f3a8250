import SeqScript.Binary64.Basic
import SeqScript.Place

/-!
# Programs

A program is a list of statements. Statements hold expressions and patterns, and
every node that a message can point at knows its place. The tables of operator
names stand here too: `BinaryOp.symbol`, `CollectionOp.name` and its inverse
`CollectionOp.ofName?`, and `Ty.text`.
-/

namespace SeqScript

-- ---------------------------------------------------------------------------
-- Types
-- ---------------------------------------------------------------------------

/-- A declared type. -/
inductive Ty where
  | int | float | bool | string
  | array (element : Ty)
  | list (element : Ty)
  | func
  deriving Repr, DecidableEq

/-- A type as it is written. -/
def Ty.text : Ty → String
  | .int => "int"
  | .float => "float"
  | .bool => "bool"
  | .string => "string"
  | .array t => "array<" ++ t.text ++ ">"
  | .list t => "list<" ++ t.text ++ ">"
  | .func => "func"

-- ---------------------------------------------------------------------------
-- Operators
-- ---------------------------------------------------------------------------

inductive BinaryOp where
  | add | sub | mul | div | mod
  | eq | ne
  | lt | le | gt | ge
  | and | or
  deriving Repr, DecidableEq

def BinaryOp.symbol : BinaryOp → String
  | .add => "+" | .sub => "-" | .mul => "*" | .div => "/" | .mod => "%"
  | .eq => "==" | .ne => "!="
  | .lt => "<" | .le => "<=" | .gt => ">" | .ge => ">="
  | .and => "and" | .or => "or"

inductive UnaryOp where
  | negate | not
  deriving Repr, DecidableEq

def UnaryOp.symbol : UnaryOp → String
  | .negate => "-"
  | .not => "not"

/-- How an assignment writes: a plain value, or the old value combined with a
new one. -/
inductive AssignOp where
  | set | add | sub | mul | div
  deriving Repr, DecidableEq

/-- The operator with which a compound assignment combines. -/
def AssignOp.combine? : AssignOp → Option BinaryOp
  | .set => none
  | .add => some .add
  | .sub => some .sub
  | .mul => some .mul
  | .div => some .div

def AssignOp.symbol : AssignOp → String
  | .set => "=" | .add => "+=" | .sub => "-=" | .mul => "*=" | .div => "/="

/-- The operations written behind a dot. -/
inductive CollectionOp where
  | sort | append | remove
  | mean | median | variance | stddev | linreg
  | map | filter | rotate | shift
  | add | multiply | invert | transpose
  deriving Repr, DecidableEq

namespace CollectionOp

def name : CollectionOp → String
  | sort => "sort" | append => "append" | remove => "remove"
  | mean => "mean" | median => "median" | variance => "variance" | stddev => "stddev"
  | linreg => "linreg"
  | map => "map" | filter => "filter" | rotate => "rotate" | shift => "shift"
  | add => "add" | multiply => "multiply" | invert => "invert" | transpose => "transpose"

/-- All operations. -/
def all : List CollectionOp :=
  [sort, append, remove, mean, median, variance, stddev, linreg, map, filter, rotate, shift, add,
    multiply, invert, transpose]

/-- The operation of a name. -/
def ofName? (name : String) : Option CollectionOp := all.find? fun op => op.name == name

/-- These change their subject in place. All others leave it alone and bind
their result to a name derived from it. -/
def isMutating : CollectionOp → Bool
  | sort | append | remove => true
  | _ => false

/-- The number of positional arguments. -/
def arity : CollectionOp → Nat
  | sort | mean | median | variance | stddev | invert | transpose => 0
  | append | remove | linreg | map | filter | rotate | shift | add | multiply => 1

end CollectionOp

-- ---------------------------------------------------------------------------
-- Expressions
-- ---------------------------------------------------------------------------

/-- A literal, in an expression or in a pattern. -/
inductive Literal where
  | int (n : Int64)
  | float (x : Binary64)
  | bool (b : Bool)
  | str (s : String)
  deriving DecidableEq

inductive Expr where
  | literal (value : Literal) (place : Place)
  | ident (name : String) (place : Place)
  | binary (op : BinaryOp) (left right : Expr) (place : Place)
  | unary (op : UnaryOp) (operand : Expr) (place : Place)
  /-- `Int(e)`, `String(e)` -/
  | cast (ty : Ty) (operand : Expr) (place : Place)
  /-- `f(e, …)` -/
  | call (callee : String) (args : List Expr) (place : Place)
  /-- `e[i]` -/
  | index (subject position : Expr) (place : Place)
  /-- `e.op(e, …, name: e, …)` -/
  | collection (op : CollectionOp) (subject : Expr) (args : List Expr)
      (named : List (String × Expr)) (place : Place)
  /-- `[e, …]`: an array or a list, as the declared type asks. -/
  | items (elements : List Expr) (place : Place)
  /-- `x => e` -/
  | lambda (param : String) (body : Expr) (place : Place)

/-- Where an expression is said to stand: a binary, indexed or dotted one with
its left part. -/
def Expr.place : Expr → Place
  | .literal _ p | .ident _ p | .binary _ _ _ p | .unary _ _ p | .cast _ _ p | .call _ _ p
  | .index _ _ p | .collection _ _ _ _ p | .items _ p | .lambda _ _ p => p

-- ---------------------------------------------------------------------------
-- Patterns and statements
-- ---------------------------------------------------------------------------

inductive Pattern where
  | literal (value : Literal)
  /-- `_` -/
  | wildcard
  /-- A name: it matches anything and is bound to it. -/
  | bind (name : String)
  /-- `[p, …]`: a sequence of that length, matched place by place. -/
  | items (elements : List Pattern)

/-- A parameter of a declared function. -/
structure Param where
  name : String
  ty : Ty
  default : Option Expr
  place : Place

mutual

inductive Stmt where
  /-- `let x: T = e;` -/
  | declare (name : String) (ty : Option Ty) (value : Option Expr) (place : Place)
  /-- `x = e;`, `x += e;` -/
  | assign (target : String) (op : AssignOp) (value : Expr) (place : Place)
  /-- `x[i] = e;`, `x[i] += e;` -/
  | assignIndex (target : String) (position : Expr) (op : AssignOp) (value : Expr) (place : Place)
  /-- `func f(p: T = e, …) -> T { … }` -/
  | func (name : String) (params : List Param) (result : Option Ty) (body : List Stmt)
      (place : Place)
  /-- `if c { … } else { … }`; an `else if` is an else branch that holds one `if`. -/
  | branch (condition : Expr) (onTrue : List Stmt) (onFalse : Option (List Stmt)) (place : Place)
  /-- `while c { … }` -/
  | loop (condition : Expr) (body : List Stmt) (place : Place)
  /-- `match e { case p => s … }` -/
  | select (subject : Expr) (cases : List MatchCase) (place : Place)
  /-- `return e;` -/
  | ret (value : Option Expr) (place : Place)
  /-- `{ … }` -/
  | block (body : List Stmt) (place : Place)
  /-- `e;` -/
  | expr (value : Expr)

inductive MatchCase where
  | mk (pattern : Pattern) (body : Stmt) (place : Place)

end

namespace MatchCase

def pattern : MatchCase → Pattern
  | mk p _ _ => p

def body : MatchCase → Stmt
  | mk _ s _ => s

def place : MatchCase → Place
  | mk _ _ p => p

end MatchCase

/-- A program. -/
abbrev Program := List Stmt

end SeqScript
