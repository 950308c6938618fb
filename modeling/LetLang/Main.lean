import LetLang.Command

/-!
# The program

Reads the arguments, the script file and the standard input, and shows what the command line makes
of them. At the prompt each line is run before the next one is read.
-/

namespace LetLang.Command

/-- The number of calls that may be open at the same time: more than memory holds. -/
def depthLimit : Nat := Nat.pow 2 62

/-- Writes to the two output streams. -/
def emit (output messages : String) : IO Unit := do
  IO.print output
  (← IO.getStdout).flush
  IO.eprint messages

/-- The text of a file, if it can be read. -/
def readFile? (path : String) : IO (Option String) := do
  try
    return some (← IO.FS.readFile path)
  catch _ =>
    return none

/-- Runs lines that are typed at the prompt until the input ends or the prompt is left. -/
partial def promptLoop (showTree : Bool) (s : Session) : IO Unit := do
  emit promptText ""
  let text ← (← IO.getStdin).getLine
  match promptLines text with
  | [] => return ()
  | lines =>
    let (shown, s') := runLines depthLimit showTree lines s
    let result := collect "" shown
    emit result.stdout result.stderr
    promptLoop showTree s'

/-- A session with random numbers of its own. -/
def newSession : IO Session := do
  let seed ← IO.rand 0 (Nat.pow 2 62)
  return { context := { random := RandomSource.ofSeed (UInt64.ofNat seed) } }

/-- Runs what the options ask for, and gives the exit code. -/
def execute (o : Options) : IO UInt32 := do
  let s ← newSession
  match o.contents with
  | none =>
    promptLoop o.showTree s
    return 0
  | some contents =>
    let file ← if o.file then readFile? contents else pure none
    let result := runOptions depthLimit o (fun _ => file) "" s
    emit result.stdout result.stderr
    return UInt32.ofNat result.exitCode

end LetLang.Command

open LetLang.Command in
/-- The program. -/
def main (args : List String) : IO UInt32 :=
  match Options.ofArguments? args with
  | some o => execute o
  | none => do
    emit usage.stdout usage.stderr
    return UInt32.ofNat usage.exitCode
