/-!
# Places in a source text

A place is a line and a column, both counted from one. A column counts the bytes
of the encoded text, so a character of several bytes takes several columns.
-/

namespace SeqScript

/-- A place in a source text. -/
structure Place where
  line : Nat
  column : Nat
  deriving Repr, DecidableEq

namespace Place

/-- Where a source text begins. -/
def start : Place := ⟨1, 1⟩

/-- The place behind a character. -/
def next (p : Place) (c : Char) : Place :=
  if c = '\n' then ⟨p.line + 1, 1⟩ else ⟨p.line, p.column + c.utf8Size⟩

/-- The place behind a text. -/
def past (p : Place) (text : List Char) : Place := text.foldl next p

/-- The place some columns further on the same line. -/
def shifted (p : Place) (columns : Nat) : Place := ⟨p.line, p.column + columns⟩

@[simp] theorem past_nil (p : Place) : p.past [] = p := rfl

@[simp] theorem past_append (p : Place) (s t : List Char) : p.past (s ++ t) = (p.past s).past t :=
  List.foldl_append

end Place

end SeqScript
