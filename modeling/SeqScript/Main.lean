import SeqScript.Command

/-!
# Running a file from the command line
-/

namespace SeqScript.Command

/-- The content of a file. -/
def readContent (path : String) : IO Content := do
  try
    return .bytes (← IO.FS.readBinFile path)
  catch
    | .noFileOrDirectory .. => return .missing
    | e => return .unreadable (toString e)

end SeqScript.Command

open SeqScript

def main (args : List String) : IO UInt32 := do
  match Command.Options.standard.read? args with
  | some ⟨some path, limit, _⟩ =>
    let report := Command.run path limit (← Command.readContent path)
    IO.print report.stdout
    (← IO.getStdout).flush
    IO.eprint report.stderr
    return report.exit
  | _ =>
    IO.eprintln "usage: seqscript FILE [--max-depth N] [--verbose]"
    return 2
