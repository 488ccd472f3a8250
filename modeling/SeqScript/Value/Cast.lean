import SeqScript.Text.Blank
import SeqScript.Value.Datum
import SeqScript.Word

/-!
# Casts

The conversions a program asks for by name: `Int(v)`, `Float(v)`, `Bool(v)` and
`String(v)`. Only numbers, truth values and texts can be converted. A text is
read without the blanks at its ends; the words for the truth values stand for
them, whatever the target.
-/

namespace SeqScript

namespace Word

/-- A floating-point number with its fraction cut off, if that is a 64-bit
integer. -/
def truncated? (x : Binary64) : Option Int64 := x.truncate?.bind ofInt?

/-- The integer a text denotes: as an integer, or else as a floating-point
number with its fraction cut off. -/
def ofText? (cs : List Char) : Option Int64 :=
  match (Text.readInt? cs).bind ofInt? with
  | some n => some n
  | none => (Binary64.read? (String.ofList cs)).bind truncated?

end Word

namespace Value

/-- The numbers for the truth values. -/
def bit (b : Bool) : Int64 := if b then 1 else 0

def toInt? : Value → Option Int64
  | .int n => some n
  | .float x => Word.truncated? x
  | .bool b => some (bit b)
  | .str s =>
    let cs := Text.trim s.toList
    match Text.readBool? cs with
    | some b => some (bit b)
    | none => Word.ofText? cs
  | _ => none

def toFloat? : Value → Option Binary64
  | .int n => some (Binary64.ofWord n)
  | .float x => some x
  | .bool b => some (if b then 1.0 else 0.0)
  | .str s =>
    let cs := Text.trim s.toList
    match Text.readBool? cs with
    | some b => some (if b then 1.0 else 0.0)
    | none => Binary64.read? (String.ofList cs)
  | _ => none

/-- A number is true unless it is zero; so is a text that denotes a number. -/
def toBool? : Value → Option Bool
  | .bool b => some b
  | .int n => some (n != 0)
  | .float x => some (!x.isZero)
  | .str s =>
    let cs := Text.trim s.toList
    match Text.readBool? cs with
    | some b => some b
    | none => (Binary64.read? (String.ofList cs)).map fun x => !x.isZero
  | _ => none

def toText? : Value → Option String
  | .int n => some (Text.intText n.toInt)
  | .float x => some (Binary64.text x)
  | .bool b => some (Text.boolText b)
  | .str s => some s
  | _ => none

/-- A value converted to a type, if it can be. -/
def cast? (ty : Ty) (v : Value) : Option Value :=
  match ty with
  | .int => v.toInt?.map .int
  | .float => v.toFloat?.map .float
  | .bool => v.toBool?.map .bool
  | .string => v.toText?.map .str
  | .array _ | .list _ | .func => none

/-- A value converted to a type. -/
def cast (h : Heap) (ty : Ty) (v : Value) : Except Cause Value :=
  match v.cast? ty with
  | some w => .ok w
  | none => .error (.badCast v.kind (h.text v) ty)

end Value

end SeqScript
