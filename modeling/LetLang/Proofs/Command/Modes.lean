import LetLang.Command
import LetLang.Proofs.Line.MapLines
import LetLang.Proofs.Session.Calls
import LetLang.Proofs.Text.Lines
import Mathlib.Data.List.TakeWhile

/-!
# Scripts and prompts

A script shows the same as its lines typed at the prompt (`runPrompt_agrees_runScript`). The two
runs go line by line through sessions that mirror each other: the functions of the one are those of
the other with every line number replaced, since at the prompt every line has the number one. No
line number gets into what a line prints, into its value or into its tree as it is shown, and the
only place where it is reported are the lexical and syntax errors of the line itself.
-/

namespace LetLang

/-- What is reported about an evaluation does not show the line. -/
theorem Failure.reports_mapLine (f : Nat → Nat) {x : Failure} (h : x.isTextual = false) :
    (x.mapLine f).reports = x.reports := by
  cases x with
  | lexical errors => cases h
  | syntactic e => cases h
  | runtime e => rfl
  | tooDeep => rfl

theorem Outcome.isTextual_of_result {o : Outcome α} {x : Failure} (h : o.result = .error x) :
    x.isTextual = false := by
  cases o <;> cases h <;> rfl

/-- A line fails in its text only if it cannot be parsed. -/
theorem Line.parse_of_isTextual {depth : Nat} {source : String} {n : Nat} {w : World}
    {x : Failure} (h : (effect depth source n w).result = .error x) (hx : x.isTextual = true) :
    parse source n = .error x := by
  unfold effect at h
  cases hparse : parse source n with
  | error y => simpa [hparse] using h
  | ok tree =>
    simp only [hparse] at h
    rw [Outcome.isTextual_of_result h] at hx
    cases hx

namespace Command

/-! ### What a line shows -/

/-- The output for the tree of a line. -/
def treeOutput (showTree : Bool) : Except Failure Expr → String
  | .ok tree => if showTree then tree.text ++ "\n" else ""
  | .error _ => ""

/-- What a line with the given effect shows. -/
def shownOf (showTree : Bool) (parsed : Except Failure Expr) (e : Line.Effect) : Shown where
  output := treeOutput showTree parsed ++ printedText e.printed ++ valueOutput e.result.toOption
  messages := Failure.reportsOf e.result

/-- A session between two lines: no variable is bound, no message is held, and the sink takes what
is printed. -/
structure Ready (s : Session) : Prop where
  vars : s.context.vars = []
  messages : s.reporter.messages = []
  accepts : s.context.sink.accepts = true

/-- A line is run in the session, and what it printed and reported is taken from there. -/
theorem runLine_eq_run (depth : Nat) (showTree : Bool) (s : Session) (source : String) (n : Nat) :
    let r := s.run depth source n
    runLine depth showTree s source n =
      (⟨treeOutput showTree (Line.parse source n) ++
          printedText (r.2.context.sink.since s.context.sink.written.size) ++ valueOutput r.1,
        r.2.reporter.messages⟩, r.2.take.2) := by
  dsimp only [runLine, Session.run]
  rw [Session.parse_eq]
  cases Line.parse source n with
  | ok tree => rfl
  | error x =>
    have hprinted : s.context.sink.since s.context.sink.written.size = [] := by
      simp [Sink.since]
    dsimp only
    rw [hprinted]
    rfl

/-- A line shows what its effect says, and the session after it has the functions of the effect. -/
theorem runLine_eq (depth : Nat) (showTree : Bool) {s : Session} (h : Ready s) (source : String)
    (n : Nat) :
    let e := Line.effect depth source n s.context.world
    (runLine depth showTree s source n).1 = shownOf showTree (Line.parse source n) e ∧
    Ready (runLine depth showTree s source n).2 ∧
    (runLine depth showTree s source n).2.context.world = e.world := by
  intro e
  have hmessages : (s.reporter.afterLine e.result).messages = Failure.reportsOf e.result := by
    cases e.result with
    | ok v => exact h.messages
    | error x => exact congrArg (· ++ x.reports) h.messages
  have hprinted := Sink.since_writeAll s.context.sink e.printed
  rw [if_pos h.accepts] at hprinted
  rw [runLine_eq_run, Session.run_eq depth h.vars]
  refine ⟨?_, ⟨h.vars, rfl, (Sink.accepts_writeAll _ _).trans h.accepts⟩, rfl⟩
  dsimp only [shownOf, Context.afterLine]
  rw [hmessages, hprinted]

/-! ### Two sessions -/

/-- The number that a line has at the prompt. Zero, which stands for no line, stays zero. -/
def promptLine (n : Nat) : Nat := min n 1

/-- The session `s'` is as `s` would be if every line in it had been typed at the prompt. The random
numbers may differ. -/
structure Mirrors (s s' : Session) : Prop where
  ready : Ready s
  ready' : Ready s'
  functions : s'.context.functions = s.context.functions.mapLines promptLine

/-- The messages for a line with the number `n` that fails with `x`, if it fails. -/
def reportsAt (n : Nat) (x : Option Failure) : List String :=
  x.elim [] fun x => (x.atLine n).reports

/-- A line that fails in its text fails with `x`, on the line `n` and at the prompt. -/
def FailsWith (n : Nat) (source : String) (x : Failure) : Prop :=
  x.isTextual = true → Line.parse source n = .error (x.atLine n) ∧
    Line.parse source 1 = .error (x.atLine 1)

theorem treeOutput_promptLine (showTree : Bool) {source : String} (h : '\n' ∉ source.toList)
    (n : Nat) : treeOutput showTree (Line.parse source (promptLine n)) =
      treeOutput showTree (Line.parse source n) := by
  rw [Line.parse_mapLine h (f := promptLine) rfl]
  cases Line.parse source n with
  | ok tree =>
    dsimp only [treeOutput]
    rw [Expr.text_mapLines]
  | error x => rfl

theorem promptLine_eq {n : Nat} (hn : 1 ≤ n) : promptLine n = 1 := Nat.min_eq_right hn

/-- A failure of a line is reported on that line, and at the prompt on line one. -/
theorem reports_of_effect {depth : Nat} {source : String} (hnewline : '\n' ∉ source.toList)
    {n : Nat} (hn : 1 ≤ n) {w : World} {x : Failure}
    (h : (Line.effect depth source n w).result = .error x) :
    FailsWith n source x ∧ x.reports = reportsAt n (some x) ∧
      (x.mapLine promptLine).reports = reportsAt 1 (some x) := by
  cases hx : x.isTextual with
  | false =>
    refine ⟨fun hx' => absurd (hx.symm.trans hx') Bool.false_ne_true, ?_, ?_⟩
    · exact (Failure.reports_mapLine _ hx).symm
    · exact (Failure.reports_mapLine _ hx).trans (Failure.reports_mapLine _ hx).symm
  | true =>
    have hparse := Line.parse_of_isTextual h hx
    have hat := Line.atLine_of_parse hnewline hparse
    -- all the errors are on line `n`, which has the number one at the prompt
    have hprompt : x.mapLine promptLine = x.atLine 1 := by
      calc x.mapLine promptLine = (x.atLine n).mapLine promptLine := by rw [hat]
        _ = x.mapLine fun _ => promptLine n := Failure.mapLine_mapLine _ _ x
        _ = x.atLine 1 := by rw [promptLine_eq hn]; rfl
    have hparse' := Line.parse_mapLine hnewline (f := promptLine) rfl n
    rw [hparse, promptLine_eq hn] at hparse'
    dsimp only at hparse'
    refine ⟨fun _ => ⟨hat.symm ▸ hparse, hprompt ▸ hparse'⟩, ?_, ?_⟩
    · exact congrArg Failure.reports hat.symm
    · exact congrArg Failure.reports hprompt

/-- **One line**: a line of a script and the same line at the prompt have the same output and the
same messages, up to the line number, and leave sessions that mirror each other. -/
theorem Mirrors.runLine {s s' : Session} (h : Mirrors s s')
    (hF : s.context.functions.AllBodies fun e => e.isFunction = false ∧ e.isRand = false)
    (depth : Nat) (showTree : Bool) {source : String} {n : Nat} (hnewline : '\n' ∉ source.toList)
    (hn : 1 ≤ n) (hrand : Line.RandFree source n) :
    let p := runLine depth showTree s source n
    let p' := runLine depth showTree s' source 1
    Mirrors p.2 p'.2 ∧
    (p.2.context.functions.AllBodies fun e => e.isFunction = false ∧ e.isRand = false) ∧
    p'.1.output = p.1.output ∧
    ∃ x : Option Failure, (∀ y ∈ x, FailsWith n source y) ∧ p.1.messages = reportsAt n x ∧
      p'.1.messages = reportsAt 1 x := by
  intro p p'
  have hline := promptLine_eq hn
  -- the random numbers of the one session make no difference to the other
  obtain ⟨result, printed, q, q', -, heffect, heffect'⟩ :=
    Line.effect_uniform admits_randFree hF depth hrand.allParts
      (show (fun _ _ => True) s.context.random s'.context.random from trivial)
  have hprompt := Line.effect_mapLine hnewline (f := promptLine) rfl depth n
    ⟨s.context.functions, s'.context.random⟩
  have hworld : s'.context.world =
      (World.mk s.context.functions s'.context.random).mapLines promptLine := by
    unfold Context.world World.mapLines
    rw [h.functions]
  rw [hline, ← hworld, heffect'] at hprompt
  obtain ⟨hshown, hready, hafter⟩ := runLine_eq depth showTree h.ready source n
  obtain ⟨hshown', hready', hafter'⟩ := runLine_eq depth showTree h.ready' source 1
  change Line.effect depth source n s.context.world = _ at heffect
  rw [heffect] at hshown hafter
  rw [hprompt] at hshown' hafter'
  have hfunctions : p.2.context.functions = Line.table s.context.functions source n :=
    congrArg World.functions hafter
  have hfunctions' : p'.2.context.functions =
      (Line.table s.context.functions source n).mapLines promptLine :=
    congrArg World.functions hafter'
  have hbodies := hrand.allParts.allBodies hF
  rw [← hfunctions] at hbodies hfunctions'
  refine ⟨⟨hready, hready', hfunctions'⟩, hbodies, ?_, ?_⟩
  · rw [hshown, hshown', ← hline]
    dsimp only [shownOf]
    rw [treeOutput_promptLine showTree hnewline]
    cases result <;> rfl
  · rw [hshown, hshown']
    dsimp only [shownOf]
    cases result with
    | ok v => exact ⟨none, nofun, rfl, rfl⟩
    | error x =>
      have hresult : (Line.effect depth source n s.context.world).result = .error x :=
        congrArg Line.Effect.result heffect
      obtain ⟨hfails, hreports, hreports'⟩ := reports_of_effect hnewline hn hresult
      refine ⟨some x, fun y hy => ?_, hreports, hreports'⟩
      rwa [← Option.some.inj hy]

/-! ### Two runs -/

/-- **Many lines**: the lines of a script and the same lines at the prompt have the same outputs,
and the same messages up to the line numbers. -/
theorem Mirrors.runLines (depth : Nat) (showTree : Bool) {lines : List (Nat × String)}
    (hlines : ∀ l ∈ lines, '\n' ∉ l.2.toList ∧ 1 ≤ l.1 ∧ Line.RandFree l.2 l.1) {s s' : Session}
    (h : Mirrors s s')
    (hF : s.context.functions.AllBodies fun e => e.isFunction = false ∧ e.isRand = false) :
    let shown := (runLines depth showTree lines s).1
    let shown' := (runLines depth showTree (lines.map fun l => (1, l.2)) s').1
    shown.length = lines.length ∧ shown'.map Shown.output = shown.map Shown.output ∧
    ∃ failures : List (Option Failure), failures.length = lines.length ∧
      (∀ l x, (l, some x) ∈ lines.zip failures → FailsWith l.1 l.2 x) ∧
      shown.map Shown.messages = (lines.zip failures).map (fun p => reportsAt p.1.1 p.2) ∧
      shown'.map Shown.messages = failures.map (reportsAt 1) := by
  induction lines generalizing s s' with
  | nil => exact ⟨rfl, rfl, [], rfl, nofun, rfl, rfl⟩
  | cons l lines ih =>
    obtain ⟨n, source⟩ := l
    obtain ⟨⟨hnewline, hn, hrand⟩, hlines⟩ := List.forall_mem_cons.mp hlines
    obtain ⟨hmirrors, hbodies, houtput, x, hx, hmessages, hmessages'⟩ :=
      h.runLine hF depth showTree hnewline hn hrand
    obtain ⟨hlength, houtputs, failures, hcount, hfails, hmore, hmore'⟩ :=
      ih hlines hmirrors hbodies
    refine ⟨congrArg (· + 1) hlength, congrArg₂ List.cons houtput houtputs, x :: failures,
      congrArg (· + 1) hcount, ?_, congrArg₂ List.cons hmessages hmore,
      congrArg₂ List.cons hmessages' hmore'⟩
    intro l y hmem
    rcases List.mem_cons.mp hmem with hpair | hmem
    · obtain ⟨rfl, rfl⟩ := Prod.mk.inj hpair
      exact hx y rfl
    · exact hfails l y hmem

/-- The lines of a script that are not blank, typed at the prompt, are the lines that are run
there. -/
theorem promptLines_join {lines : List (Nat × String)}
    (hnewline : ∀ l ∈ lines, '\n' ∉ l.2.toList)
    (hreturn : ∀ l ∈ lines, l.2.toList.getLast? ≠ some '\r')
    (hexit : ∀ l ∈ lines, l.2 ≠ leaveLine) :
    promptLines (String.join (lines.map fun l => l.2 ++ "\n")) = lines.map fun l => (1, l.2) := by
  have hsplit : Text.lines (String.join (lines.map fun l => l.2 ++ "\n")).toList =
      lines.map fun l => l.2.toList := by
    have hlines := Text.lines_flatMap (List.forall_mem_map.mpr hnewline)
      (List.forall_mem_map.mpr hreturn)
    rw [List.flatMap_map] at hlines
    rw [String.toList_join, List.flatMap_map]
    simp only [String.toList_append]
    exact hlines
  have hkept : (lines.map Prod.snd).takeWhile (· ≠ leaveLine) = lines.map Prod.snd := by
    have hall : ∀ source ∈ lines.map Prod.snd, decide (source ≠ leaveLine) = true :=
      List.forall_mem_map.mpr fun l hl => decide_eq_true (hexit l hl)
    exact List.takeWhile_eq_self_iff.mpr hall
  unfold promptLines
  rw [hsplit, List.map_map]
  simp only [Function.comp_def, String.ofList_toList]
  rw [hkept, List.map_map]
  rfl

/-- A session that has run no line mirrors another one, whatever their random numbers are. -/
theorem mirrors_fresh (random random' : RandomSource) :
    Mirrors { context := { random } } { context := { random := random' } } :=
  ⟨⟨rfl, rfl, rfl⟩, ⟨rfl, rfl, rfl⟩, rfl⟩

theorem stdout_collect (before : String) (shown : List Shown) :
    (collect before shown).stdout = String.join ((shown.map Shown.output).map (before ++ ·)) := by
  rw [List.map_map]
  rfl

theorem stderr_collect (before : String) (shown : List Shown) :
    (collect before shown).stderr = String.join ((shown.map Shown.messages).map messageLines) := by
  rw [List.map_map]
  rfl

/-- **Scripts and prompts agree.** Take a script that calls no random numbers, of whose lines, apart
from blank ones, none leaves the prompt and none ends with a carriage return. If these lines are
typed at the prompt, the output is that of the script, cut into what each line shows, with the text
of the prompt before each part and at the end. And the messages are the same, except that a lexical
or syntax error of a line is reported with the number of that line by the script, and with the
number one at the prompt. -/
theorem runPrompt_agrees_runScript (depth : Nat) (showTree : Bool)
    (readFile? : String → Option String) (path script typed : String)
    (random random' : RandomSource) (hread : readFile? path = some script)
    (hexit : ∀ l ∈ Text.scriptLines script, l.2 ≠ leaveLine)
    (hreturn : ∀ l ∈ Text.scriptLines script, l.2.toList.getLast? ≠ some '\r')
    (hrand : ∀ l ∈ Text.scriptLines script, Line.RandFree l.2 l.1) :
    let lines := Text.scriptLines script
    let input := String.join (lines.map fun l => l.2 ++ "\n")
    let shown := (runLines depth showTree lines { context := { random } }).1
    let file := runOptions depth { file := true, showTree, contents := some path } readFile? typed
      { context := { random } }
    let prompt := runOptions depth { showTree } readFile? input { context := { random := random' } }
    shown.length = lines.length ∧
    file.stdout = String.join (shown.map Shown.output) ∧
    prompt.stdout = String.join (shown.map fun p => promptText ++ p.output) ++ promptText ∧
    ∃ failures : List (Option Failure), failures.length = lines.length ∧
      (∀ l x, (l, some x) ∈ lines.zip failures → x.isTextual = true →
        Line.parse l.2 l.1 = .error (x.atLine l.1) ∧ Line.parse l.2 1 = .error (x.atLine 1)) ∧
      file.stderr =
        String.join ((lines.zip failures).map fun p => messageLines (reportsAt p.1.1 p.2)) ∧
      prompt.stderr = String.join (failures.map fun x => messageLines (reportsAt 1 x)) := by
  intro lines input shown file prompt
  have hlines : ∀ l ∈ lines, '\n' ∉ l.2.toList ∧ 1 ≤ l.1 ∧ Line.RandFree l.2 l.1 := by
    intro l hl
    obtain ⟨hle, hmem⟩ := Text.of_mem_numberedLines hl
    exact ⟨Text.not_mem_of_mem_lines hmem, hle, hrand l hl⟩
  obtain ⟨hlength, houtputs, failures, hcount, hfails, hmessages, hmessages'⟩ :=
    (mirrors_fresh random random').runLines depth showTree hlines nofun
  let shown' := (runLines depth showTree (lines.map fun l => (1, l.2))
    { context := { random := random' } }).1
  have hfile : file = collect "" shown := by
    dsimp only [file, runOptions]
    rw [if_pos rfl, hread]
    rfl
  have hprompt : prompt =
      { collect promptText shown' with
        stdout := (collect promptText shown').stdout ++ promptText } := by
    dsimp only [prompt, runOptions, runPrompt]
    rw [promptLines_join (fun l hl => (hlines l hl).1) hreturn hexit]
  refine ⟨hlength, ?_, ?_, failures, hcount, hfails, ?_, ?_⟩
  · rw [hfile, stdout_collect]
    simp only [String.empty_append, List.map_id']
  · rw [hprompt, stdout_collect, houtputs, List.map_map]
    rfl
  · rw [hfile, stderr_collect, hmessages, List.map_map]
    rfl
  · rw [hprompt, stderr_collect, hmessages', List.map_map]
    rfl

/-- The second line of this script has a syntax error, which is reported on line one at the prompt,
and the third one a variable that is not declared. -/
theorem runPrompt_agrees_on_errors :
    let script := "\n(a;\nc;\n"
    let lines := [(2, "(a;"), (3, "c;")]
    let shown := (runLines 1 true lines {}).1
    Text.scriptLines script = lines ∧
    (∀ l ∈ lines, l.2 ≠ leaveLine ∧ l.2.toList.getLast? ≠ some '\r' ∧ Line.RandFree l.2 l.1) ∧
    (runScript 1 true script {}).stdout = String.join (shown.map Shown.output) ∧
    (runPrompt 1 true "(a;\nc;\n" {}).stdout =
      String.join (shown.map fun p => promptText ++ p.output) ++ promptText ∧
    (runScript 1 true script {}).stderr =
      "! SYNTAX ERROR [2:3] at ';': Expected ')' after expression.\n" ++
        "! SEMANTIC ERROR: `c` is not declared.\n" ∧
    (runPrompt 1 true "(a;\nc;\n" {}).stderr =
      "! SYNTAX ERROR [1:3] at ';': Expected ')' after expression.\n" ++
        "! SEMANTIC ERROR: `c` is not declared.\n" ∧
    ∃ failures : List (Option Failure),
      (runScript 1 true script {}).stderr =
        String.join ((lines.zip failures).map fun p => messageLines (reportsAt p.1.1 p.2)) ∧
      (runPrompt 1 true "(a;\nc;\n" {}).stderr =
        String.join (failures.map fun x => messageLines (reportsAt 1 x)) := by
  intro script lines shown
  have hlines : Text.scriptLines script = lines := by decide
  have hgroup : ∀ n ∈ [1, 2], Line.parse "(a;" n = .error (.syntactic
      ⟨.unexpectedToken "Expected ')' after expression.", ";", ⟨n, 3⟩⟩) := by
    simp only [List.forall_mem_cons]
    refine ⟨?_, ?_, List.forall_mem_nil _⟩ <;>
    · dsimp only [Line.parse]
      rw [Token.scan_eq_place]
      with_unfolding_all rfl
  have hname : ∀ n ∈ [1, 3], Line.parse "c;" n = .ok (.var "c" n) := by
    simp only [List.forall_mem_cons]
    refine ⟨?_, ?_, List.forall_mem_nil _⟩ <;>
    · dsimp only [Line.parse]
      rw [Token.scan_eq_place]
      with_unfolding_all rfl
  have hall : ∀ l ∈ lines,
      l.2 ≠ leaveLine ∧ l.2.toList.getLast? ≠ some '\r' ∧ Line.RandFree l.2 l.1 := by
    simp only [lines, List.forall_mem_cons]
    refine ⟨⟨by decide, by decide, fun tree htree => ?_⟩,
      ⟨by decide, by decide, fun tree htree => ?_⟩, List.forall_mem_nil _⟩
    · rw [hgroup 2 (by decide)] at htree
      cases htree
    · rw [hname 3 (by decide)] at htree
      obtain rfl := Except.ok.inj htree
      simp [Expr.RandFree, Expr.subtrees, Expr.isRand]
  have hmessages : ∀ n ∈ [1, 2], ∀ m ∈ [1, 3],
      (runLines 1 true [(n, "(a;"), (m, "c;")] {}).1.map Shown.messages =
        [[(SyntaxError.mk (.unexpectedToken "Expected ')' after expression.") ";" ⟨n, 3⟩).report],
          ["! SEMANTIC ERROR: `c` is not declared."]] := by
    intro n hn m hm
    simp only [runLines, runLine, Session.parse_eq, hgroup n hn, hname m hm]
    rfl
  have hinput : promptLines "(a;\nc;\n" = [(1, "(a;"), (1, "c;")] := by decide
  obtain ⟨-, hfile, hprompt, failures, -, -, hfile', hprompt'⟩ :=
    runPrompt_agrees_runScript 1 true (fun _ => some script) "script" script ""
      (.ofSeed 0) (.ofSeed 0) rfl (hlines ▸ fun l hl => (hall l hl).1)
      (hlines ▸ fun l hl => (hall l hl).2.1) (hlines ▸ fun l hl => (hall l hl).2.2)
  rw [hlines] at hfile hprompt hfile' hprompt'
  refine ⟨hlines, hall, hfile, hprompt, ?_, ?_, failures, hfile', hprompt'⟩
  · rw [runScript, stderr_collect, hlines, hmessages 2 (by decide) 3 (by decide)]
    decide
  · show (collect promptText (runLines 1 true (promptLines "(a;\nc;\n") {}).1).stderr = _
    rw [stderr_collect, hinput, hmessages 1 (by decide) 1 (by decide)]
    decide

end Command

end LetLang
