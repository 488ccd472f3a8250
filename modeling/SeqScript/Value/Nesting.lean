import SeqScript.Heap

/-!
# Nesting

Whether a store occurs in a value: as the store of the value itself, or of
anything nested in it at any depth. A value is refused entry to a store that
occurs in it, which is why no sequence is ever nested in itself.

The search goes at most as deep as there are stores. A path of references meets
a store at most once, so the bound cuts nothing off.
-/

namespace SeqScript.Heap

/-- Whether a store occurs in a value, going at most so many references deep. -/
def mentionsWithin (h : Heap) (store : SeqId) : Nat → Value → Bool
  | 0, .seq _ id => id == store
  | depth + 1, .seq _ id =>
    id == store || (h.read id).toList.any (h.mentionsWithin store depth)
  | _, _ => false

/-- Whether a store is that of a value or of anything nested in it. -/
def mentions (h : Heap) (store : SeqId) (v : Value) : Bool :=
  h.mentionsWithin store (h.size + 1) v

end SeqScript.Heap
