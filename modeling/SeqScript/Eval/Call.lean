import SeqScript.Eval.Builtin
import SeqScript.Eval.Stmt

/-!
# Calls

A call of a function made by a program runs in a new frame that stands in the
one the function was created in, never in the caller's. So many calls may be
under way at once as the limit says.
-/

namespace SeqScript

open Run

namespace Doer

variable (self : Doer)

/-- Binds an argument to its parameter, as the parameter's type asks. -/
def bindParam (p : Param) (v : Value) (line : Nat) : Run Unit := do
  let v ← Run.assignable line p.ty v
  define p.name v (some p.ty)

/-- Binds arguments to parameters from left to right. A missing argument is
replaced by the default, evaluated in the frame of the call. -/
def bindParams (function : String) (line : Nat) : List Param → List Value → Run Unit
  | [], _ => return ()
  | p :: ps, v :: vs => do
    bindParam p v line
    bindParams function line ps vs
  | p :: ps, [] => do
    match p.default with
    | none => fail line (.missingArgument p.name function)
    | some e => do
      let v ← self (.eval (some p.ty) e)
      bindParam p v line
      bindParams function line ps []

/-- Runs the code of a function in the frame of its call. -/
def runCode (code : Code) (args : List Value) (line : Nat) : Run Value := do
  match code with
  | .declared decl =>
    if decl.params.length < args.length then
      fail line (.tooManyArguments decl.name decl.params.length args.length)
    else
      self.bindParams decl.name line decl.params args
      let last ← self.execAll decl.body
      takePending last
  | .lambda param body =>
    match args with
    | [v] => do
      define param v none
      self.eval body
    | _ => fail line (.lambdaArity args.length)

/-- Calls a function made by a program. -/
def callClosure (limit : Nat) (f : Closure) (args : List Value) (line : Nat) : Run Value := do
  if limit ≤ (← get).depth then fail line (.callDepth limit)
  else
    let frame ← childOf f.frame
    inCall frame (self.runCode f.code args line)

/-- Calls a value. -/
def callValue (limit : Nat) (f : Value) (args : List Value) (line : Nat) : Run Value :=
  match f with
  | .func c => self.callClosure limit c args line
  | .builtin b => b.call self args line
  | v => fail line (.notCallable v.kind)

end Doer

-- ---------------------------------------------------------------------------
-- The evaluator
-- ---------------------------------------------------------------------------

/-- What a task comes down to. `limit` is the number of calls that may be under
way at once. -/
def step (limit : Nat) (self : Doer) : Task → Run Value
  | .eval hint e => self.evalExpr hint e
  | .exec s => self.execStmt s
  | .call f args line => self.callValue limit f args line

/-- Does a task. The budget bounds how deep tasks nest, turns of loops
included; with none left the run ends exhausted. -/
def perform (limit : Nat) : Nat → Doer
  | 0, _ => throw .exhausted
  | budget + 1, t => step limit (perform limit budget) t

end SeqScript
