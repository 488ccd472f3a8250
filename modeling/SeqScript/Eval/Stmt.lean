import SeqScript.Eval.Expr
import SeqScript.Value.Match

/-!
# Statements

What executing a statement comes down to. A statement gives a value, which is
that of the program or function if it is the last: an expression its own, a
block, `if` or `match` that of the last statement executed in it, and all others
the unit value.

A `return` leaves its value in the machine's register and the statements around
it stop by themselves: each looks at the register before it goes on.
-/

namespace SeqScript

open Run

-- ---------------------------------------------------------------------------
-- What needs no evaluation
-- ---------------------------------------------------------------------------

/-- An element of a sequence about to be written. -/
structure ElementWrite where
  index : Nat
  value : Value
  /-- The heap with the copies that the declared type asked for. -/
  heap : Heap

/-- What an assignment sign makes of the old value and the right side. -/
def AssignOp.apply (h : Heap) (op : AssignOp) (current v : Value) : Except Cause Value :=
  match op.combine? with
  | none => .ok v
  | some op => Value.binary h op current v

/-- What an assignment to an element writes, if everything allows it. -/
def elementWrite (h : Heap) (id : SeqId) (declared : Option Ty) (op : AssignOp) (index v : Value) :
    Except Cause ElementWrite := do
  let items := h.read id
  let index ← indexIn items.size index
  let v ← op.apply h (items.getD index .unit) v
  let (value, heap) ← assignableElement h declared v
  checkInsertion heap id value
  return { index, value, heap }

/-- Whether the current frame binds a name to a function that a program made. -/
def Run.bindsFunction (name : String) : Run Bool := do
  let m ← get
  match m.scopes.local? m.frame name with
  | some ⟨.func _, _⟩ => return true
  | _ => return false

/-- `func f(…) { … }` -/
def Run.declareFunction (decl : FuncDecl) (line : Nat) : Run Unit := do
  if ← bindsFunction decl.name then fail line (.functionRedefined decl.name)
  else
    let f ← newClosure (.declared decl)
    define decl.name f none

/-- The first case whose pattern fits, and what its names are bound to. -/
def MatchCase.firstFit? (h : Heap) (v : Value) :
    List MatchCase → Option (List (String × Value) × Stmt)
  | [] => none
  | c :: cs =>
    match c.pattern.bindings? h v with
    | some bindings => some (bindings, c.body)
    | none => firstFit? h v cs

namespace Doer

variable (self : Doer)

-- ---------------------------------------------------------------------------
-- Blocks
-- ---------------------------------------------------------------------------

/-- Executes statements until one sets off a return; the value is that of the
last one executed, or `last` if there is none. -/
def execFrom (last : Value) : List Stmt → Run Value
  | [] => return last
  | s :: ss => do
    let v ← self (.exec s)
    if ← returning then return v else execFrom v ss

/-- Executes statements. -/
def execAll (body : List Stmt) : Run Value := self.execFrom .unit body

/-- Executes statements in a frame of their own. -/
def execBlock (body : List Stmt) : Run Value := do
  let f ← newFrame
  inFrame f (self.execAll body)

/-- The truth value of a condition. -/
def condition (statement : String) (e : Expr) : Run Bool := do
  match ← self.eval e with
  | .bool b => return b
  | v => fail e.place.line (.conditionNotBool statement v.kind)

-- ---------------------------------------------------------------------------
-- Declarations and assignments
-- ---------------------------------------------------------------------------

/-- The value a variable is declared with, before it is checked. -/
def initial : Option Ty → Option Expr → Run Value
  | ty, some e => self (.eval ty e)
  | some ty, none => modifyGet fun m =>
      let (v, h) := defaultValue m.heap ty
      (v, { m with heap := h })
  | none, none => return .unit

/-- `let x: T = e;` -/
def execDeclare (name : String) (ty : Option Ty) (value : Option Expr) (line : Nat) : Run Unit := do
  let v ← self.initial ty value
  let v ← assignable? line ty v
  define name v ty

/-- The value an assignment computes, before it is checked. -/
def assigned (target : String) (op : AssignOp) (declared : Option Ty) (value : Expr) (line : Nat) :
    Run Value := do
  match op.combine? with
  | none => self (.eval declared value)
  | some op => do
    let current ← valueOf line target (.undefinedVariable target)
    let v ← self.eval value
    charge line (Value.binary (← heap) op current v)

/-- `x = e;` and the like. The declared type is the one the target has before
the right side is evaluated. -/
def execAssign (target : String) (op : AssignOp) (value : Expr) (line : Nat) : Run Unit := do
  let declared ← declared? target
  let v ← self.assigned target op declared value line
  let v ← assignable? line declared v
  assign target v

/-- `x[i] = e;` and the like. The variable is looked up first, and its sequence
is looked at last. -/
def execAssignIndex (target : String) (position : Expr) (op : AssignOp) (value : Expr)
    (line : Nat) : Run Unit := do
  match ← lookup? target with
  | none => fail line (.undefinedVariable target)
  | some b => do
    let index ← self.eval position
    let v ← self.eval value
    match b.value with
    | .seq _ id => do
      let w ← charge line (elementWrite (← heap) id b.ty op index v)
      setHeap w.heap
      update id (·.setIfInBounds w.index w.value)
    | other => fail line (.noElements other.kind)

-- ---------------------------------------------------------------------------
-- Cases
-- ---------------------------------------------------------------------------

/-- `match e { … }`: the body of the first case that fits, in a frame that
holds the bindings of its pattern. -/
def execSelect (subject : Expr) (cases : List MatchCase) (line : Nat) : Run Value := do
  let v ← self.eval subject
  let h ← heap
  match MatchCase.firstFit? h v cases with
  | none => fail line (.noCase (h.text v))
  | some (bindings, body) => do
    let f ← newFrame
    inFrame f do
      defineAll bindings
      self.execAll [body]

-- ---------------------------------------------------------------------------
-- All statements
-- ---------------------------------------------------------------------------

/-- `while c { … }`: one turn, and the loop again unless a return ends it. -/
def execLoop (c : Expr) (body : List Stmt) (p : Place) : Run Value := do
  if ← self.condition "while" c then
    let _ ← self.execBlock body
    if ← returning then return .unit else self (.exec (.loop c body p))
  else return .unit

/-- `return e;` -/
def execReturn (value : Option Expr) : Run Value := do
  match value with
  | some e => setPending (← self.eval e)
  | none => setPending .unit
  return .unit

/-- Executes a statement. -/
def execStmt : Stmt → Run Value
  | .declare name ty value p => do
    self.execDeclare name ty value p.line
    return .unit
  | .assign target op value p => do
    self.execAssign target op value p.line
    return .unit
  | .assignIndex target position op value p => do
    self.execAssignIndex target position op value p.line
    return .unit
  | .func name params _ body p => do
    declareFunction ⟨name, params, body⟩ p.line
    return .unit
  | .branch c onTrue onFalse _ => do
    if ← self.condition "if" c then self.execBlock onTrue
    else
      match onFalse with
      | some body => self.execBlock body
      | none => return .unit
  | .loop c body p => self.execLoop c body p
  | .select subject cases p => self.execSelect subject cases p.line
  | .ret value _ => self.execReturn value
  | .block body _ => self.execBlock body
  | .expr e => self.eval e

end Doer

end SeqScript
