import SeqScript.Heap

/-!
# Pattern matching

Whether a pattern fits a value, and what its names are bound to then: each to
the part of the value at its own place, in the order in which they stand in the
pattern. A literal fits a value of its own kind only, so `1` does not fit `1.0`.
-/

namespace SeqScript

/-- Whether a value is the one a literal denotes. -/
def Literal.fits : Literal → Value → Bool
  | .int a, .int b => a == b
  | .float a, .float b => a.equals b
  | .bool a, .bool b => a == b
  | .str a, .str b => a == b
  | _, _ => false

namespace Pattern

mutual

/-- Tries a pattern on a value and adds a binding for every name that it comes to, also for
those before a part that does not fit. -/
def matchInto (h : Heap) : Pattern → Value → Array (String × Value) →
    Bool × Array (String × Value)
  | wildcard, _, made => (true, made)
  | bind name, v, made => (true, made.push (name, v))
  | literal l, v, made => (l.fits v, made)
  | items ps, .seq _ id, made =>
    if (h.read id).size = ps.length then matchAllInto h ps (h.read id).toList made
    else (false, made)
  | items _, _, made => (false, made)

/-- Tries patterns on values side by side, until one does not fit. -/
def matchAllInto (h : Heap) : List Pattern → List Value → Array (String × Value) →
    Bool × Array (String × Value)
  | p :: ps, v :: vs, made =>
    match matchInto h p v made with
    | (true, made) => matchAllInto h ps vs made
    | (false, made) => (false, made)
  | _, _, made => (true, made)

end

/-- What is kept of the bindings made: nothing if the pattern did not fit. -/
def keep? : Bool × Array (String × Value) → Option (List (String × Value))
  | (true, made) => some made.toList
  | (false, _) => none

/-- The bindings of a pattern against a value, or nothing if it does not fit. -/
def bindings? (h : Heap) (p : Pattern) (v : Value) : Option (List (String × Value)) :=
  keep? (p.matchInto h v #[])

end Pattern

end SeqScript
