/-!
# Options

What the arguments of the command line ask for. No option may be given twice, and there is at most
one argument that is not an option.
-/

namespace LetLang.Command

/-- What the arguments ask for. -/
structure Options where
  /-- The contents name a script file. -/
  file : Bool := false
  /-- The tree of each line is shown before it is evaluated. -/
  showTree : Bool := false
  verbose : Bool := false
  /-- The name of a script file, or a line of source. -/
  contents : Option String := none
deriving Repr, DecidableEq

namespace Options

/-- Takes the contents for the name of a script file. -/
def setFile (o : Options) : Option Options :=
  if o.file then none else some { o with file := true }

/-- Asks for the trees. -/
def setShowTree (o : Options) : Option Options :=
  if o.showTree then none else some { o with showTree := true }

/-- Asks for details. -/
def setVerbose (o : Options) : Option Options :=
  if o.verbose then none else some { o with verbose := true }

/-- Gives the contents. -/
def setContents (o : Options) (text : String) : Option Options :=
  if o.contents.isSome then none else some { o with contents := some text }

/-- Sets the options that the letters after a single dash stand for. -/
def setLetters (o : Options) : List Char → Option Options
  | [] => some o
  | 'f' :: cs => o.setFile.bind (setLetters · cs)
  | 'v' :: cs => o.setVerbose.bind (setLetters · cs)
  | _ :: _ => none

/-- Sets what one argument asks for. -/
def setArgument (o : Options) (arg : String) : Option Options :=
  match arg.toList with
  | ['-'] => o.setContents arg
  | '-' :: '-' :: _ =>
    if arg = "--file" then o.setFile
    else if arg = "--ast" then o.setShowTree
    else if arg = "--verbose" then o.setVerbose
    else none
  | '-' :: letters => o.setLetters letters
  | _ => o.setContents arg

/-- Sets what the arguments ask for. After `--` every argument is contents. -/
def setArguments (o : Options) : List String → Option Options
  | [] => some o
  | arg :: args =>
    if arg = "--" then args.foldlM setContents o
    else (o.setArgument arg).bind (setArguments · args)

/-- The options that a list of arguments stands for, if it is well formed. -/
def ofArguments? (args : List String) : Option Options := setArguments {} args

end Options

end LetLang.Command
