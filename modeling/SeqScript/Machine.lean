import SeqScript.Scopes
import SeqScript.Value.Conform

/-!
# The machine

The state in which programs run: the heap, the frames, what has been printed and
played, and three registers. The registers are the current frame, the number of
calls that are under way, and the value of a `return` that has been executed and
not yet been taken up by the call it ends.

A run is a function on machines that ends with a value, with a fault, or because
its budget of steps is used up. Whichever way it ends, the machine it leaves is
there: what a program did before it failed stays done.
-/

namespace SeqScript

/-- What programs have put out. -/
structure Output where
  /-- The printed lines. -/
  lines : Array String
  /-- The played sequences. -/
  notes : Array (List Value)

structure Machine where
  heap : Heap
  scopes : Scopes
  /-- The current frame. -/
  frame : FrameId
  /-- The number of calls under way. -/
  depth : Nat
  /-- The value of a `return` on its way out. -/
  pending : Option Value
  /-- The number of functions created so far. -/
  closures : Nat
  output : Output

/-- Why a run ends without a value. -/
inductive Stop where
  | fault (f : Fault)
  /-- The budget is used up. -/
  | exhausted
  /-- A row could not be sorted because the order of its values contradicts itself. -/
  | disorder (row : List Value)

/-- A run of the machine. -/
abbrev Run := EStateM Stop Machine

namespace Run

-- ---------------------------------------------------------------------------
-- Faults
-- ---------------------------------------------------------------------------

/-- Ends with a fault. -/
def fail {α : Type} (line : Nat) (cause : Cause) : Run α := throw (.fault ⟨line, cause⟩)

/-- Goes on with a result, or ends with its cause as a fault on the given line. -/
def charge {α : Type} (line : Nat) : Except Cause α → Run α
  | .ok a => pure a
  | .error cause => fail line cause

-- ---------------------------------------------------------------------------
-- Heap
-- ---------------------------------------------------------------------------

def heap : Run Heap := return (← get).heap

/-- Replaces the heap. -/
def setHeap (h : Heap) : Run Unit := modify fun m => { m with heap := h }

/-- The elements of a store. -/
def read (id : SeqId) : Run (List Value) := return (← heap).read id |>.toList

/-- Changes a store. -/
def update (id : SeqId) (f : Array Value → Array Value) : Run Unit :=
  modify fun m => { m with heap := m.heap.modify id f }

/-- Makes a new sequence. -/
def newSeq (kind : SeqKind) (items : List Value) : Run Value :=
  modifyGet fun m =>
    let (v, h) := m.heap.newSeq kind items
    (v, { m with heap := h })

/-- Takes up a value together with the heap it comes with. -/
def adopt (line : Nat) (result : Except Cause (Value × Heap)) : Run Value := do
  let (v, h) ← charge line result
  setHeap h
  return v

/-- A value as it is stored under a declared type. -/
def assignable (line : Nat) (ty : Ty) (v : Value) : Run Value := do
  adopt line (SeqScript.assignable (← heap) ty v)

/-- A value as it is stored under a type that may not have been declared. -/
def assignable? (line : Nat) (ty : Option Ty) (v : Value) : Run Value :=
  match ty with
  | some t => assignable line t v
  | none => return v

-- ---------------------------------------------------------------------------
-- Variables
-- ---------------------------------------------------------------------------

/-- The nearest binding of a name. -/
def lookup? (name : String) : Run (Option Binding) := do
  let m ← get
  return m.scopes.lookup? m.frame name

/-- The value of a name, or the given cause as a fault. -/
def valueOf (line : Nat) (name : String) (cause : Cause) : Run Value := do
  match ← lookup? name with
  | some b => return b.value
  | none => fail line cause

/-- The declared type of a name. -/
def declared? (name : String) : Run (Option Ty) := do
  let m ← get
  return m.scopes.declared? m.frame name

/-- Binds a name in the current frame. -/
def define (name : String) (value : Value) (ty : Option Ty) : Run Unit :=
  modify fun m => { m with scopes := m.scopes.define m.frame name value ty }

/-- Binds names in the current frame, one after another. -/
def defineAll : List (String × Value) → Run Unit
  | [] => return ()
  | (name, v) :: rest => do
    define name v none
    defineAll rest

/-- Gives a name a new value where it is bound, or binds it in the current
frame. -/
def assign (name : String) (value : Value) : Run Unit :=
  modify fun m => { m with scopes := (m.scopes.assign m.frame name value).2 }

/-- A new frame that stands in a given one. -/
def childOf (f : FrameId) : Run FrameId :=
  modifyGet fun m =>
    let (id, s) := m.scopes.child f
    (id, { m with scopes := s })

/-- A new frame that stands in the current one. -/
def newFrame : Run FrameId := do childOf (← get).frame

-- ---------------------------------------------------------------------------
-- Registers
-- ---------------------------------------------------------------------------

/-- Runs something and puts the registers right afterwards, however it ends. -/
@[inline] def restoring {α : Type} (restore : Machine → Machine) (act : Run α) : Run α := fun m =>
  match act m with
  | .ok a m => .ok a (restore m)
  | .error e m => .error e (restore m)

/-- Runs something in a frame and comes back to the current one. -/
@[inline] def inFrame {α : Type} (f : FrameId) (act : Run α) : Run α := do
  let frame := (← get).frame
  restoring (fun m => { m with frame }) do
    modify fun m => { m with frame := f }
    act

/-- Runs something as a call in a frame: one level deeper and with no return
under way. Afterwards it comes back up a level, to the frame and the return of
before. -/
@[inline] def inCall {α : Type} (f : FrameId) (act : Run α) : Run α := do
  let frame := (← get).frame
  let pending := (← get).pending
  restoring (fun m => { m with frame, depth := m.depth - 1, pending }) do
    modify fun m => { m with frame := f, depth := m.depth + 1, pending := none }
    act

/-- Whether a return is under way. -/
def returning : Run Bool := return (← get).pending.isSome

/-- Sets off a return. -/
def setPending (v : Value) : Run Unit := modify fun m => { m with pending := some v }

/-- Takes up the return that is under way; without one the value is the given. -/
def takePending (last : Value) : Run Value :=
  modifyGet fun m => (m.pending.getD last, { m with pending := none })

/-- A new function created in the current frame. -/
def newClosure (code : Code) : Run Value :=
  modifyGet fun m =>
    (.func ⟨m.closures, code, m.frame⟩, { m with closures := m.closures + 1 })

-- ---------------------------------------------------------------------------
-- Output
-- ---------------------------------------------------------------------------

/-- Prints values on a line. -/
def print (vs : List Value) : Run Unit :=
  modify fun m =>
    let line := m.heap.line vs
    { m with output := { m.output with lines := m.output.lines.push line } }

/-- Plays a sequence of numbers. -/
def play (notes : List Value) : Run Unit :=
  modify fun m => { m with output := { m.output with notes := m.output.notes.push notes } }

end Run

end SeqScript
