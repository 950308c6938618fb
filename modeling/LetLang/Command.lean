import LetLang.Command.Options
import LetLang.Session
import LetLang.Text.Lines

/-!
# The command line

The arguments say what is run: a script file, line by line; one line that is given as an argument;
or lines that are typed at a prompt. What a run shows is a pure function of the arguments, the files
and the input.
-/

namespace LetLang.Command

/-! ### Lines -/

/-- What a line shows: its output and its messages. -/
structure Shown where
  output : String := ""
  messages : List String := []

/-- The output for the value of a line. The value of a declaration is not shown. -/
def valueOutput : Option Value → String
  | some v => if v.isNil then "" else v.display ++ "\n"
  | none => ""

/-- Parses and evaluates a line in a session. The output has the tree of the line if it is asked
for, what the line printed, and its value. At most `depth` calls may be open at the same time. -/
def runLine (depth : Nat) (showTree : Bool) (s : Session) (source : String) (line : Nat) :
    Shown × Session :=
  match s.parse source line with
  | (none, s₁) =>
    let (messages, s₂) := s₁.take
    ({ messages }, s₂)
  | (some tree, s₁) =>
    let treeOutput := if showTree then tree.text ++ "\n" else ""
    let (v, s₂) := s₁.evalTree depth tree
    let printed := printedText (s₂.context.sink.since s₁.context.sink.written.size)
    let (messages, s₃) := s₂.take
    ({ output := treeOutput ++ printed ++ valueOutput v, messages }, s₃)

/-- Runs numbered lines, one after the other. -/
def runLines (depth : Nat) (showTree : Bool) :
    List (Nat × String) → Session → List Shown × Session
  | [], s => ([], s)
  | (n, source) :: rest, s =>
    let (shown, s') := runLine depth showTree s source n
    let (more, s'') := runLines depth showTree rest s'
    (shown :: more, s'')

/-! ### Runs -/

/-- What a run leaves: the texts of the two output streams and the exit code. -/
structure Result where
  stdout : String := ""
  stderr : String := ""
  exitCode : Nat := 0
deriving Repr, DecidableEq

/-- Messages, each on a line of its own. -/
def messageLines (messages : List String) : String := String.join (messages.map (· ++ "\n"))

/-- The result of running lines, with `before` in front of the output of each. -/
def collect (before : String) (shown : List Shown) : Result where
  stdout := String.join (shown.map fun s => before ++ s.output)
  stderr := String.join (shown.map fun s => messageLines s.messages)

/-- Runs a script. -/
def runScript (depth : Nat) (showTree : Bool) (script : String) (s : Session) : Result :=
  collect "" (runLines depth showTree (Text.scriptLines script) s).1

/-- What is shown when a script cannot be read. -/
def unreadable (path : String) : Result where
  stderr := s!"Failed to read the input file '{path}'. Perhaps this file does not exist?\n"
  exitCode := 1

/-- What the prompt shows before it reads a line. -/
def promptText : String := "> "

/-- The line that leaves the prompt. -/
def leaveLine : String := "exit"

/-- The lines of an input that are run at the prompt. All of them have the number one. -/
def promptLines (input : String) : List (Nat × String) :=
  (((Text.lines input.toList).map String.ofList).takeWhile (· ≠ leaveLine)).map fun l => (1, l)

/-- Runs an input at the prompt. -/
def runPrompt (depth : Nat) (showTree : Bool) (input : String) (s : Session) : Result :=
  let result := collect promptText (runLines depth showTree (promptLines input) s).1
  { result with stdout := result.stdout ++ promptText }

/-- Runs what the options ask for. `readFile?` gives the text of a file that can be read. -/
def runOptions (depth : Nat) (o : Options) (readFile? : String → Option String) (input : String)
    (s : Session) : Result :=
  match o.contents with
  | none => runPrompt depth o.showTree input s
  | some contents =>
    if o.file then
      match readFile? contents with
      | some script => runScript depth o.showTree script s
      | none => unreadable contents
    else collect "" (runLines depth o.showTree [(1, contents)] s).1

/-- What is shown when the arguments are not well formed. -/
def usage : Result where
  stderr := "Usage: [-f | --file] [--ast] [-v | --verbose] [CONTENTS]\n"
  exitCode := 2

/-- Runs what the arguments ask for. -/
def run (depth : Nat) (args : List String) (readFile? : String → Option String) (input : String)
    (s : Session) : Result :=
  match Options.ofArguments? args with
  | some o => runOptions depth o readFile? input s
  | none => usage

end LetLang.Command
