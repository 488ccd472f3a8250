import SeqScript.Heap

/-!
# Values read out in full

A datum is a value in which every sequence has been replaced by its elements,
down to values without elements. The texts of values are defined on data, by
recursion on their structure.

Reading out goes at most as deep as there are stores. As no sequence is ever
nested in itself, a path of references meets a store at most once, so the bound
cuts nothing off.
-/

namespace SeqScript

/-- A value read out in full. -/
inductive Datum where
  /-- A value that is no sequence. -/
  | plain (v : Value)
  | seq (kind : SeqKind) (items : List Datum)

namespace Heap

/-- Reads a value out, going at most so many references deep. -/
def readOut (h : Heap) : Nat → Value → Datum
  | 0, .seq kind _ => .seq kind []
  | depth + 1, .seq kind id => .seq kind ((h.read id).toList.map (h.readOut depth))
  | _, v => .plain v

/-- Reads a value out in full. -/
def datum (h : Heap) (v : Value) : Datum := h.readOut (h.size + 1) v

end Heap

namespace Datum

/-- The text of a value that is no sequence. -/
def plainText : Value → String
  | .int n => Text.intText n.toInt
  | .float x => Binary64.text x
  | .bool b => Text.boolText b
  | .str s => s
  | .matrix m => m.text
  | .func f => "<func " ++ f.name ++ ">"
  | .builtin b => "<builtin " ++ b.name ++ ">"
  | .unit => "unit"
  | .seq .. => ""

mutual

/-- The text of a value inside a sequence, where strings are quoted. -/
def nestedText : Datum → String
  | plain (.str s) => Text.quoted s
  | plain v => plainText v
  | seq _ items => "[" ++ ", ".intercalate (nestedTexts items) ++ "]"

def nestedTexts : List Datum → List String
  | [] => []
  | d :: ds => nestedText d :: nestedTexts ds

end

/-- The text of a value. -/
def text : Datum → String
  | plain v => plainText v
  | d => nestedText d

/-- The text of a value that is no sequence, with its kind. -/
def plainLabel : Value → String
  | .int n => "Int(" ++ Text.intText n.toInt ++ ")"
  | .float x => "Float(" ++ Binary64.text x ++ ")"
  | .bool b => "Bool(" ++ Text.boolText b ++ ")"
  | .str s => "Str(" ++ Text.quoted s ++ ")"
  | .matrix m => "Matrix(" ++ m.text ++ ")"
  | .func f => "Function(" ++ f.name ++ ")"
  | .builtin b => "Builtin(" ++ b.name ++ ")"
  | .unit => "Unit"
  | .seq .. => ""

def kindLabel : SeqKind → String
  | .array => "Array"
  | .list => "List"

mutual

/-- The text of a value with the kinds of all its parts. -/
def label : Datum → String
  | plain v => plainLabel v
  | seq kind items => kindLabel kind ++ "([" ++ ", ".intercalate (labels items) ++ "])"

def labels : List Datum → List String
  | [] => []
  | d :: ds => label d :: labels ds

end

end Datum

namespace Heap

/-- The text of a value. -/
def text (h : Heap) (v : Value) : String := (h.datum v).text

/-- Values on one line, a space between them. -/
def line (h : Heap) (vs : List Value) : String := " ".intercalate (vs.map h.text)

end Heap

end SeqScript
