import SeqScript.Value.Basic

/-!
# The heap

The stores of all sequences, by number. A store is never freed and its number
never used again, so the heap only grows, and a reference stays good. Reading a
number that no store has gives no elements, and writing there changes nothing.
-/

namespace SeqScript

/-- The elements of every sequence. -/
structure Heap where
  stores : Array (Array Value)

namespace Heap

def empty : Heap := ⟨#[]⟩

instance : Inhabited Heap := ⟨empty⟩

/-- The number of stores. -/
def size (h : Heap) : Nat := h.stores.size

/-- The elements of a store. -/
def read (h : Heap) (id : SeqId) : Array Value := h.stores.getD id #[]

/-- A store changed. -/
def modify (h : Heap) (id : SeqId) (f : Array Value → Array Value) : Heap :=
  ⟨h.stores.modify id f⟩

/-- A store with new elements. -/
def write (h : Heap) (id : SeqId) (items : Array Value) : Heap := h.modify id fun _ => items

/-- A new store. -/
def alloc (h : Heap) (items : Array Value) : SeqId × Heap := (h.size, ⟨h.stores.push items⟩)

/-- A new sequence. -/
def newSeq (h : Heap) (kind : SeqKind) (items : List Value) : Value × Heap :=
  let (id, h) := h.alloc items.toArray
  (.seq kind id, h)

-- ---------------------------------------------------------------------------
-- What the operations do to the elements
-- ---------------------------------------------------------------------------

theorem read_eq (h : Heap) (id : SeqId) : h.read id = (h.stores[id]?).getD #[] := by
  simp [read]

theorem read_modify (h : Heap) (id other : SeqId) (f : Array Value → Array Value) :
    (h.modify id f).read other =
      if id = other ∧ other < h.size then f (h.read other) else h.read other := by
  simp only [read_eq, modify, size, Array.getElem?_modify]
  by_cases hid : id = other
  · subst hid
    by_cases hlt : id < h.stores.size <;> simp [hlt]
  · simp [hid]

theorem read_alloc (h : Heap) (items : Array Value) (other : SeqId) :
    (h.alloc items).2.read other = if other = h.size then items else h.read other := by
  simp only [read_eq, alloc, size, Array.getElem?_push]
  split <;> rfl

@[simp] theorem size_modify (h : Heap) (id : SeqId) (f : Array Value → Array Value) :
    (h.modify id f).size = h.size := by
  simp [modify, size]

@[simp] theorem size_alloc (h : Heap) (items : Array Value) :
    (h.alloc items).2.size = h.size + 1 := by
  simp [alloc, size]

end Heap

end SeqScript
