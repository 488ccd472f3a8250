import SeqScript.Eval.Call
import SeqScript.Program.Parser

/-!
# Sessions

A session runs programs one after another. Variables, sequences and functions
stay from one program to the next, also after a program that failed. The frame of
a session's variables stands in one that binds the names of the functions that
are always there.
-/

namespace SeqScript

/-- A machine between two programs, and the limits it runs under. -/
structure Session where
  machine : Machine
  /-- The frame of the variables of all programs. -/
  globals : FrameId
  /-- How many calls may be under way at once. -/
  limit : Nat

namespace Session

/-- The limit on calls unless another is asked for. -/
def standardLimit : Nat := 10000

/-- A budget no program uses up within a lifetime. -/
def ampleBudget : Nat := 0x1000000000000000

/-- The frame of the functions that are always there. -/
def prelude : FrameId × Scopes :=
  let (f, s) := Scopes.empty.root
  (f, Builtin.all.foldl (fun s b => s.define f b.name (.builtin b) none) s)

/-- A new session. -/
def start (limit : Nat) : Session :=
  let (outer, s) := prelude
  let (globals, s) := s.child outer
  { machine :=
      { heap := .empty, scopes := s, frame := globals, depth := 0, pending := none, closures := 0,
        output := ⟨#[], #[]⟩ }
    globals
    limit }

/-- How a program ends. -/
inductive Outcome where
  | value (v : Value)
  | fault (f : Fault)
  /-- The budget is used up. -/
  | exhausted
  /-- A row could not be sorted because the order of its values contradicts itself. -/
  | disorder (row : List Value)

/-- Executes the statements of a program and takes up a `return` among them. -/
def runProgram (limit budget : Nat) (p : Program) : Run Value := do
  let last ← (perform limit budget).execAll p
  Run.takePending last

/-- The machine as every program finds it: in the globals, outside all calls. -/
def ready (s : Session) : Machine :=
  { s.machine with frame := s.globals, depth := 0, pending := none }

/-- Runs something on the machine of a session. -/
def conduct (s : Session) (act : Run Value) : Outcome × Session :=
  match act s.ready with
  | .ok v m => (.value v, { s with machine := m })
  | .error (.fault f) m => (.fault f, { s with machine := m })
  | .error .exhausted m => (.exhausted, { s with machine := m })
  | .error (.disorder row) m => (.disorder row, { s with machine := m })

/-- Runs a program. The outcome is the value of its last statement, or of the
`return` that ended it. -/
def evaluate (s : Session) (budget : Nat) (p : Program) : Outcome × Session :=
  s.conduct (runProgram s.limit budget p)

/-- Calls a value. -/
def call (s : Session) (budget : Nat) (f : Value) (args : List Value) (line : Nat) :
    Outcome × Session :=
  s.conduct (perform s.limit budget (.call f args line))

/-- The value of a global name; the names of the functions that are always
there count. -/
def global? (s : Session) (name : String) : Option Value :=
  s.machine.scopes.get? s.globals name

/-- The session without what has been put out so far. -/
def clearOutput (s : Session) : Session :=
  { s with machine := { s.machine with output := ⟨#[], #[]⟩ } }

end Session

end SeqScript
