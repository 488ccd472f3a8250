import SeqScript.Value.Conform
import SeqScript.Value.Nesting

/-!
# Values on their way into a sequence

Two things are asked of a value before it is put into a store that is already
there: the store must not occur in it, for then the sequence would be nested in
itself, and it must fit the declared type of the variable that holds the
sequence. The functions here only ask and copy; the writing comes after.
-/

namespace SeqScript

/-- Refuses a value that holds the store it is to be put into. -/
def checkInsertion (h : Heap) (store : SeqId) (v : Value) : Except Cause Unit :=
  if h.mentions store v then .error .selfInsertion else .ok ()

/-- Values as they are put into a store whose variable has a declared type, with
the heap afterwards. -/
def insertable (store : SeqId) (declared : Option Ty) :
    List Value → Heap → Except Cause (List Value × Heap)
  | [], h => .ok ([], h)
  | v :: vs, h => do
    checkInsertion h store v
    let (w, h) ← assignableElement h declared v
    let (ws, h) ← insertable store declared vs h
    return (w :: ws, h)

end SeqScript
