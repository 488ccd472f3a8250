import SeqScript.Value.Datum

/-!
# Values under declared types

Whether a value may be stored under a declared type, and as what. An integer
under `float` becomes a floating-point number, at any depth of arrays. An array
in which that happens is copied; any other value is stored as it is, so that an
array that fits shares its store with the variable. The elements of a list are
never looked at.
-/

namespace SeqScript

/-- A value that fits a type: what is stored, whether that differs from what
was given, and the heap with the copies made on the way. -/
structure Conformed (α : Type) where
  value : α
  changed : Bool
  heap : Heap

/-- Makes the elements of an array fit by `conform`, those from place `i` on still to come.
A copy is begun at the first element that changes, with the elements before it; from then
on every element is put into it. -/
def conformFrom (conform : Value → Heap → Option (Conformed Value)) (items : Array Value) :
    List Value → Nat → Option (Array Value) → Heap → Option (Option (Array Value) × Heap)
  | [], _, copy, h => some (copy, h)
  | v :: vs, i, copy, h =>
    match conform v h with
    | none => none
    | some c =>
      if c.changed then
        conformFrom conform items vs (i + 1)
          (some ((copy.getD (items.extract 0 i)).push c.value)) c.heap
      else conformFrom conform items vs (i + 1) (copy.map (·.push v)) c.heap

/-- Makes a value fit a type, or finds that it does not. -/
def conform : Ty → Value → Heap → Option (Conformed Value)
  | .int, .int n, h => some ⟨.int n, false, h⟩
  | .float, .float x, h => some ⟨.float x, false, h⟩
  | .float, .int n, h => some ⟨.float (Binary64.ofWord n), true, h⟩
  | .bool, .bool b, h => some ⟨.bool b, false, h⟩
  | .string, .str s, h => some ⟨.str s, false, h⟩
  | .func, .func f, h => some ⟨.func f, false, h⟩
  | .func, .builtin b, h => some ⟨.builtin b, false, h⟩
  | .func, .unit, h => some ⟨.unit, false, h⟩
  | .list _, .seq .list id, h => some ⟨.seq .list id, false, h⟩
  | .array t, .seq .array id, h =>
    match conformFrom (conform t) (h.read id) (h.read id).toList 0 none h with
    | none => none
    | some (none, heap) => some ⟨.seq .array id, false, heap⟩
    | some (some copy, heap) =>
      let (v, heap) := heap.newSeq .array copy.toList
      some ⟨v, true, heap⟩
  -- A matrix stands in for an array of arrays of numbers.
  | .array (.array .float), .matrix m, h => some ⟨.matrix m, false, h⟩
  | _, _, _ => none

/-- A value as it is stored under a declared type, with the heap afterwards. -/
def assignable (h : Heap) (ty : Ty) (v : Value) : Except Cause (Value × Heap) :=
  match conform ty v h with
  | some c => .ok (c.value, c.heap)
  | none => .error (.mismatch ty v.kind (h.text v))

/-- A value as it is stored in a sequence whose variable has a declared type:
only `array<T>` asks anything of elements. -/
def assignableElement (h : Heap) (container : Option Ty) (v : Value) :
    Except Cause (Value × Heap) :=
  match container with
  | some (.array t) => assignable h t v
  | _ => .ok (v, h)

/-- What a variable holds that is declared without a value. -/
def defaultValue (h : Heap) : Ty → Value × Heap
  | .int => (.int 0, h)
  | .float => (.float 0.0, h)
  | .bool => (.bool false, h)
  | .string => (.str "", h)
  | .array _ => h.newSeq .array []
  | .list _ => h.newSeq .list []
  | .func => (.unit, h)

end SeqScript
