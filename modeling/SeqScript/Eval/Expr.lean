import SeqScript.Eval.Collection
import SeqScript.Value.Cast

/-!
# Expressions

What evaluating an expression comes down to.
-/

namespace SeqScript

open Run

-- ---------------------------------------------------------------------------
-- Indexing
-- ---------------------------------------------------------------------------

/-- The place an index value means in something of a given length. -/
def indexIn (length : Nat) : Value → Except Cause Nat
  | .int n =>
    if 0 ≤ n.toInt ∧ n.toInt < length then .ok n.toInt.toNat
    else .error (.indexOutOfRange n length)
  | v => .error (.indexNotInt v.kind)

/-- The element of a sequence, the row of a matrix or the character of a text
at an index. -/
def elementAt (line : Nat) (subject index : Value) : Run Value := do
  match subject with
  | .seq _ id =>
    let items := (← heap).read id
    let i ← charge line (indexIn items.size index)
    return items.getD i .unit
  | .matrix m =>
    let i ← charge line (indexIn m.rows index)
    newSeq .array (((m.row? i).getD []).map .float)
  | .str s =>
    let cs := s.toList
    let i ← charge line (indexIn cs.length index)
    return .str (String.ofList (cs[i]?.toList))
  | _ => fail line (.notIndexable subject.kind)

-- ---------------------------------------------------------------------------
-- Hints
-- ---------------------------------------------------------------------------

/-- What an array literal makes under a hint: which kind of sequence, and the
hint for its elements. -/
def itemsHint : Option Ty → SeqKind × Option Ty
  | some (.list t) => (.list, some t)
  | some (.array t) => (.array, some t)
  | _ => (.array, none)

/-- The parameters a value announces: those of a declared function. -/
def Value.params : Value → List Param
  | .func ⟨_, .declared decl, _⟩ => decl.params
  | _ => []

-- ---------------------------------------------------------------------------
-- Operators and calls
-- ---------------------------------------------------------------------------

namespace Doer

variable (self : Doer)

/-- `and` and `or`: the right operand is evaluated only if the left one does
not decide. -/
def evalLogic (op : BinaryOp) (decides : Bool) (left right : Expr) (line : Nat) : Run Value := do
  match ← self.eval left with
  | .bool l =>
    if l = decides then return .bool l
    else
      match ← self.eval right with
      | .bool r => return .bool r
      | v => fail line (.logicNotBool op v.kind)
  | v => fail line (.logicNotBool op v.kind)

/-- Evaluates arguments, each with the type of its parameter as the hint. -/
def evalArguments : List Param → List Expr → Run (List Value)
  | _, [] => return []
  | params, e :: es => do
    let v ← self (.eval (params.head?.map Param.ty) e)
    return v :: (← evalArguments params.tail es)

/-- Evaluates the elements of an array literal. -/
def evalItems (hint : Option Ty) : List Expr → Run (List Value)
  | [] => return []
  | e :: es => do
    let v ← self (.eval hint e)
    return v :: (← evalItems hint es)

/-- Evaluates an expression. Only array literals look at the hint. -/
def evalExpr (hint : Option Ty) : Expr → Run Value
  | .literal v _ => return .ofLiteral v
  | .ident name p => valueOf p.line name (.undefinedVariable name)
  | .binary .and l r p => self.evalLogic .and false l r p.line
  | .binary .or l r p => self.evalLogic .or true l r p.line
  | .binary op l r p => do
    let a ← self.eval l
    let b ← self.eval r
    charge p.line (Value.binary (← heap) op a b)
  | .unary op e p => do
    let v ← self.eval e
    charge p.line (Value.unary op v)
  | .cast ty e p => do
    let v ← self.eval e
    charge p.line (Value.cast (← heap) ty v)
  | .call callee args p => do
    let f ← valueOf p.line callee (.undefinedFunction callee)
    let vs ← self.evalArguments f.params args
    self (.call f vs p.line)
  | .index subject position p => do
    let s ← self.eval subject
    let i ← self.eval position
    elementAt p.line s i
  | .collection op subject args named p => op.eval self subject args named p.line
  | .items es _ => do
    let (kind, inner) := itemsHint hint
    newSeq kind (← self.evalItems inner es)
  | .lambda param body _ => newClosure (.lambda param body)

end Doer

end SeqScript
