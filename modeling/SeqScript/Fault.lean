import SeqScript.Builtin
import SeqScript.Program.Basic
import SeqScript.Text.Written

/-!
# Faults

What can go wrong while a program runs. A cause says what happened; its class
and its wording are functions of the cause. A fault is a cause with the line it
is charged to.
-/

namespace SeqScript

-- ---------------------------------------------------------------------------
-- Kinds of values
-- ---------------------------------------------------------------------------

/-- The kinds of values, as far as a message tells them apart. -/
inductive Kind where
  | int | float | bool | string | array | list | matrix | func | builtin | unit
  deriving Repr, DecidableEq

def Kind.name : Kind → String
  | .int => "int" | .float => "float" | .bool => "bool" | .string => "string"
  | .array => "array" | .list => "list" | .matrix => "matrix" | .func => "func"
  | .builtin => "builtin" | .unit => "unit"

-- ---------------------------------------------------------------------------
-- Causes
-- ---------------------------------------------------------------------------

/-- The classes of faults. -/
inductive FaultClass where
  | name | type | arity | value | noMatch | declaration | recursion
  deriving Repr, DecidableEq

def FaultClass.label : FaultClass → String
  | .name => "NameError"
  | .type => "TypeError"
  | .arity => "ArityError"
  | .value => "ValueError"
  | .noMatch => "NoMatchError"
  | .declaration => "DeclarationError"
  | .recursion => "RecursionLimit"

/-- The matrix operations that ask for a particular shape. -/
inductive ShapeRule where
  | add | multiply | invert
  deriving Repr, DecidableEq

def ShapeRule.name : ShapeRule → String
  | .add => "add" | .multiply => "multiply" | .invert => "invert"

/-- Why a program cannot go on. Values stand in a cause as their text, because
they may change after it. -/
inductive Cause where
  -- Names and calls.
  | undefinedVariable (name : String)
  | undefinedFunction (name : String)
  | functionRedefined (name : String)
  | notCallable (k : Kind)
  | callDepth (limit : Nat)
  | tooManyArguments (function : String) (most got : Nat)
  | missingArgument (param function : String)
  | lambdaArity (got : Nat)
  | builtinArity (function : String) (arity : Arity) (got : Nat)
  | operationArity (op : CollectionOp) (got : Nat)
  | strangeArgument (op : CollectionOp) (name : String)
  | mutateNotBool (k : Kind)
  -- Conditions and operators.
  | conditionNotBool (statement : String) (k : Kind)
  | logicNotBool (op : BinaryOp) (k : Kind)
  | badOperands (op : BinaryOp) (left right : Kind)
  | divisionByZero
  | overflow (op : BinaryOp) (left right : Int64)
  | negationOverflow
  | badNegation (k : Kind)
  | badNot (k : Kind)
  | unordered (left right : Kind)
  -- Types.
  | badCast (k : Kind) (text : String) (ty : Ty)
  | mismatch (ty : Ty) (k : Kind) (text : String)
  -- Elements and cases.
  | notIndexable (k : Kind)
  | indexNotInt (k : Kind)
  | indexOutOfRange (index : Int64) (length : Nat)
  | noElements (k : Kind)
  | selfInsertion
  | noCase (text : String)
  -- Sequences.
  | dottedNeedsSequence (op : CollectionOp) (k : Kind)
  | dottedNeedsList (op : CollectionOp) (k : Kind)
  | needsSequence (function : String) (k : Kind)
  | needsNumber (function : String) (k : Kind)
  | needsNumbers (function : String) (k : Kind)
  | needsLength (k : Kind)
  | needsFunction (function : String) (k : Kind)
  | predicateNotBool (k : Kind)
  | amountNotInt (function : String) (k : Kind)
  | emptySequence (function : String)
  | sumOverflow
  | absOverflow
  | notFound (text : String)
  | unequalLengths (left right : Nat)
  | tooFewPoints
  | tooFewDistinct
  -- Matrices.
  | notMatrix (k : Kind)
  | badRow (k : Kind)
  | ragged (wanted got : Nat)
  | badEntry (k : Kind)
  | emptyMatrix
  | badShape (rule : ShapeRule) (wantedRows wantedCols rows cols : Nat)
  | singular
  deriving DecidableEq

namespace Cause

def faultClass : Cause → FaultClass
  | undefinedVariable _ | undefinedFunction _ => .name
  | functionRedefined _ => .declaration
  | callDepth _ => .recursion
  | tooManyArguments .. | missingArgument .. | lambdaArity _ | builtinArity .. | operationArity ..
  | strangeArgument .. => .arity
  | divisionByZero | overflow .. | negationOverflow | indexOutOfRange .. | selfInsertion
  | amountNotInt .. | emptySequence _ | sumOverflow | absOverflow | notFound _
  | unequalLengths .. | tooFewPoints | tooFewDistinct | badShape .. | singular => .value
  | noCase _ => .noMatch
  | _ => .type

/-- A word of the language in a message. -/
private def code (s : String) : String := "`" ++ s ++ "`"

private def got (k : Kind) : String := ", got " ++ k.name

private def shape (rows cols : Nat) : String := toString rows ++ "x" ++ toString cols

private def word (n : Int64) : String := Text.intText n.toInt

def message : Cause → String
  | undefinedVariable name => "undefined variable " ++ code name
  | undefinedFunction name => "undefined function " ++ code name
  | functionRedefined name => "function " ++ code name ++ " is already defined in this scope"
  | notCallable k => k.name ++ " is not callable"
  | callDepth limit => "maximum call depth of " ++ toString limit ++ " exceeded"
  | tooManyArguments f most n =>
    code f ++ " expects at most " ++ toString most ++ " args, got " ++ toString n
  | missingArgument p f => "missing argument " ++ code p ++ " in call to " ++ code f
  | lambdaArity n => "lambda expects 1 arg, got " ++ toString n
  | builtinArity f arity n => code f ++ " expects " ++ arity.text ++ " args, got " ++ toString n
  | operationArity op n =>
    code ("." ++ op.name) ++ " expects " ++ toString op.arity ++ " args, got " ++ toString n
  | strangeArgument op name =>
    code ("." ++ op.name) ++ " does not take a " ++ code name ++ " argument"
  | mutateNotBool k => "`mutate` must be bool" ++ got k
  | conditionNotBool statement k => code statement ++ " condition must be bool" ++ got k
  | logicNotBool op k => code op.symbol ++ " requires bool operands" ++ got k
  | badOperands op l r =>
    "unsupported operand types for " ++ code op.symbol ++ ": " ++ l.name ++ " and " ++ r.name
  | divisionByZero => "integer division by zero"
  | overflow op a b =>
    "integer overflow in " ++ code (word a ++ " " ++ op.symbol ++ " " ++ word b)
  | negationOverflow => "integer overflow in negation"
  | badNegation k => "unary `-` not supported on " ++ k.name
  | badNot k => "`not` requires bool" ++ got k
  | unordered l r => "cannot order " ++ l.name ++ " and " ++ r.name
  | badCast k text ty => "cannot cast " ++ k.name ++ " " ++ code text ++ " to " ++ ty.text
  | mismatch ty k text => "expected " ++ ty.text ++ got k ++ " " ++ code text
  | notIndexable k => "cannot index " ++ k.name
  | indexNotInt k => "index must be int" ++ got k
  | indexOutOfRange i n => "index " ++ word i ++ " out of range for length " ++ toString n
  | noElements k => "cannot assign into an element of " ++ k.name
  | selfInsertion => "cannot store a sequence inside itself"
  | noCase text => "no case matched " ++ text
  | dottedNeedsSequence op k => code ("." ++ op.name) ++ " requires an array or list" ++ got k
  | dottedNeedsList op k => code ("." ++ op.name) ++ " requires a list" ++ got k
  | needsSequence f k => code f ++ " expects an array or list" ++ got k
  | needsNumber f k => code f ++ " expects a number" ++ got k
  | needsNumbers f k => code f ++ " expects numeric elements" ++ got k
  | needsLength k => "`len` expects a sequence or string" ++ got k
  | needsFunction f k => code f ++ " expects a function" ++ got k
  | predicateNotBool k => "`filter` predicate must return bool" ++ got k
  | amountNotInt f k => code f ++ " expects an int amount" ++ got k
  | emptySequence f => code f ++ " of an empty sequence"
  | sumOverflow => "integer overflow in `sum`"
  | absOverflow => "integer overflow in `abs`"
  | notFound text => "`remove`: " ++ text ++ " not found"
  | unequalLengths a b =>
    "`linreg` expects sequences of equal length, got " ++ toString a ++ " and " ++ toString b
  | tooFewPoints => "`linreg` needs at least two points"
  | tooFewDistinct => "`linreg` needs at least two distinct x values"
  | notMatrix k => "expected a matrix or a 2-D numeric array" ++ got k
  | badRow k => "matrix rows must be arrays" ++ got k
  | ragged c n =>
    "ragged matrix: expected rows of length " ++ toString c ++ ", got " ++ toString n
  | badEntry k => "matrix elements must be numeric" ++ got k
  | emptyMatrix => "matrix must have at least one row and column"
  | badShape rule wr wc r c =>
    "matrix " ++ rule.name ++ ": expected " ++ shape wr wc ++ ", got " ++ shape r c
  | singular => "matrix invert: matrix is singular"

end Cause

/-- A cause and the line it is charged to. -/
structure Fault where
  line : Nat
  cause : Cause
  deriving DecidableEq

/-- A fault on one line. -/
def Fault.text (f : Fault) : String :=
  "[" ++ f.cause.faultClass.label ++ "] line " ++ toString f.line ++ " — " ++ f.cause.message

end SeqScript
