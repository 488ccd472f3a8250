import SeqScript.Session

/-!
# The command

What running a file from the command line reports: the exit code and the text on
the two output channels, as a function of what is in the file. Reading the file
and writing the report is left to the outer layer.
-/

namespace SeqScript.Command

/-- What reading a file gives. -/
inductive Content where
  | unreadable (reason : String)
  | bytes (content : ByteArray)

/-- What is found where there is no file. -/
def Content.missing : Content := .unreadable "No such file or directory (os error 2)"

/-- The text of a file, or the reason why there is none. -/
def Content.text : Content → Except String String
  | .unreadable reason => .error reason
  | .bytes content =>
    match String.fromUTF8? content with
    | some s => .ok s
    | none => .error "stream did not contain valid UTF-8"

/-- What the command leaves behind. -/
structure Report where
  exit : UInt32
  stdout : String
  stderr : String
  deriving DecidableEq

/-- Lines of text, each with its end. -/
def unlines (lines : List String) : String := String.join (lines.map (· ++ "\n"))

/-- A message about a file. -/
def about (path message : String) : String := path ++ ": " ++ message

/-- Runs a program. Played notes are not reported. -/
def runProgram (path : String) (limit : Nat) (p : Program) : Report :=
  let (outcome, s) := (Session.start limit).evaluate Session.ampleBudget p
  let stdout := unlines s.machine.output.lines.toList
  match outcome with
  | .value _ => ⟨0, stdout, ""⟩
  | .fault f => ⟨1, stdout, unlines [about path f.text]⟩
  | .exhausted => ⟨1, stdout, unlines [about path "the budget is used up"]⟩
  | .disorder _ =>
    ⟨101, stdout, unlines [about path "a row cannot be sorted, its order contradicts itself"]⟩

/-- Compiles and runs a source. -/
def runSource (path : String) (limit : Nat) (source : String) : Report :=
  match compile source with
  | .ok p => runProgram path limit p
  | .error (.diagnostics ds) => ⟨1, "", unlines (ds.map fun d => about path d.text)⟩
  | .error .dangling => ⟨101, "", unlines [about path "the source ends in the middle of an escape"]⟩

/-- Runs a file. -/
def run (path : String) (limit : Nat) (content : Content) : Report :=
  match content.text with
  | .ok source => runSource path limit source
  | .error reason => ⟨2, "", unlines ["error: cannot read '" ++ path ++ "': " ++ reason]⟩

-- ---------------------------------------------------------------------------
-- Arguments
-- ---------------------------------------------------------------------------

/-- What the arguments ask for. -/
structure Options where
  path : Option String
  limit : Nat
  verbose : Bool
  deriving DecidableEq

def Options.standard : Options := ⟨none, Session.standardLimit, false⟩

/-- Reads arguments from left to right, or finds that they cannot be read. -/
def Options.read? (o : Options) : List String → Option Options
  | [] => some o
  | "--verbose" :: rest | "-v" :: rest => read? { o with verbose := true } rest
  | "--max-depth" :: n :: rest =>
    match n.toNat? with
    | some limit => read? { o with limit } rest
    | none => none
  | path :: rest =>
    if o.path.isNone ∧ ¬ path.startsWith "-" then read? { o with path := some path } rest
    else none

end SeqScript.Command
