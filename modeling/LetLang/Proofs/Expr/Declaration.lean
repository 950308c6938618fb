import LetLang.Proofs.Expr.Read

/-!
# The parts of a statement

What the readers of a declaration read, up to the parenthesis that closes the parameters
(`reads_readHead`) and after it (`reads_readBody`), and what ends a statement
(`reads_endStatement`). In between, the parameters of a declaration are checked to be distinct. This
is not a matter of the grammar: the check consumes nothing, and it stops because of a token that has
been consumed before.
-/

namespace LetLang.Grammar

open Reader LetLang.Expr

/-! ### Parameters -/

namespace Parameters

/-- The parameters as the reader of names gives them. -/
def found (params : Option Parameters) : List (String × Token) :=
  (params.elim [] list).map fun name => (name.name, name.token)

/-- The names of what is found are those of the parameters. -/
theorem map_fst_found (params : Option Parameters) :
    (found params).map Prod.fst = Statement.names params := by
  rw [found, Statement.names, List.map_map]
  rfl

/-- The tokens `w` are parameters that are found as `as`. -/
def Means (as : List (String × Token)) (w : List Token) : Prop :=
  ∃ ps : Parameters, found (some ps) = as ∧ ps.yield = w

end Parameters

/-- The token `w` is a name that is found as `p`. -/
def Name.Means (p : String × Token) (w : List Token) : Prop :=
  ∃ name : Name, (name.name, name.token) = p ∧ [name.token] = w

theorem lists_parameters : Words.Lists Name.Means Parameters.Means where
  nonempty := ⟨_, _, someName, rfl, rfl⟩
  last := by
    rintro _ _ ⟨name, rfl, rfl⟩
    exact ⟨.last name, rfl, rfl⟩
  more := by
    rintro _ _ _ _ comma ⟨name, rfl, rfl⟩ ⟨ps, rfl, rfl⟩
    exact ⟨.more name comma ps, rfl, rfl⟩

/-! ### Declarations -/

/-- A declaration up to the parenthesis that closes its parameters. -/
structure Head where
  keyword : Terminal (.keyword .function)
  name : Name
  left : Terminal (.symbol .leftParen)
  params : Option Parameters
  right : Terminal (.symbol .rightParen)

namespace Head

/-- The tokens of the beginning of a declaration. -/
def yield (h : Head) : List Token :=
  h.keyword.token :: h.name.token :: h.left.token ::
    (h.params.elim [] Parameters.yield ++ [h.right.token])

/-- The names in the parentheses, in order. -/
def parameters (h : Head) : List Name := h.params.elim [] Parameters.list

/-- The declaration with a body. -/
def statement (h : Head) (arrow : Terminal (.symbol .arrow)) (body : Derivation .expression) :
    Statement :=
  .function h.keyword h.name h.left h.params h.right arrow body

theorem yield_statement (h : Head) (arrow : Terminal (.symbol .arrow))
    (body : Derivation .expression) :
    (h.statement arrow body).yield = h.yield ++ arrow.token :: body.yield := by
  simp [statement, yield, Statement.yield]

/-- What the reader of the beginning gives. -/
def value (h : Head) : Nat × String × List (String × Token) :=
  (h.keyword.token.line, h.name.name, Parameters.found h.params)

/-- The tokens `w` are the beginning of a declaration that is read as `x`. -/
def Means (x : Nat × String × List (String × Token)) (w : List Token) : Prop :=
  ∃ h : Head, h.value = x ∧ h.yield = w

/-- The tokens `w` complete the declaration to one with the tree `t`. -/
def Completes (h : Head) (t : Expr) (w : List Token) : Prop :=
  ∃ arrow body, (h.statement arrow body).tree = t ∧ arrow.token :: body.yield = w

end Head

section

variable {f : Nat → Nat} (hf : f 0 = 0) {n : Nat}
include hf

theorem reads_parameter : Reads f n (mapLineParameter f) Name.Means parameter parameter := by
  rw [← bind_pure parameter]
  exact .name hf fun name => .pure ⟨name, rfl, rfl⟩ rfl

/-- The parameters come after the keyword. -/
theorem reads_readHead {parameters parameters' : Reader (List (String × Token))}
    (hparams : Reads f (n - 1) (List.map (mapLineParameter f)) Parameters.Means parameters
      parameters') :
    Reads f n (fun x => (f x.1, x.2.1, x.2.2.map (mapLineParameter f))) Head.Means
      (readHead parameters) (readHead parameters') := by
  refine .keyword hf fun keyword => .name hf fun name => .symbol hf fun left => ?_
  have hclosed : ∀ expected, Reads f (n - 1 - 1 - 1) (List.map (mapLineParameter f))
      (fun as w => Head.Means (keyword.token.line, name.name, as)
        (keyword.token :: name.token :: left.token :: w))
      (toParen parameters expected) (toParen parameters' expected) := by
    refine reads_toParen hf hparams.pred.pred
      (fun right => ⟨⟨keyword, name, left, none, right⟩, rfl, rfl⟩) ?_
    rintro _ _ right ⟨ps, rfl, rfl⟩
    exact ⟨⟨keyword, name, left, some ps, right⟩, rfl, rfl⟩
  exact (hclosed _).map (fun _ _ hw => hw) fun _ => rfl

theorem reads_readBody {nested nested' : Reader Expr}
    (hnested : Reads f n (mapLines f) (Means .expression) nested nested') (h : Head) :
    Reads f n (mapLines f) h.Completes
      (readBody nested h.keyword.token.line h.name.name (Parameters.found h.params))
      (readBody nested' (f h.keyword.token.line) h.name.name
        ((Parameters.found h.params).map (mapLineParameter f))) := by
  refine .symbol hf fun arrow => hnested.pred.map ?_ fun body => ?_
  · rintro _ _ ⟨body, rfl, rfl⟩
    exact ⟨arrow, body, by rw [Parameters.map_fst_found]; rfl, rfl⟩
  · rw [mapLines, List.map_map]
    rfl

end

/-- Parameters are a name, and after a comma more parameters. -/
theorem parameters_eq : items parameter = itemsWith parameter (items parameter) :=
  items_eq (fun _ => rfl) lists_parameters fun _ => reads_parameter rfl

theorem reads_parameters {f : Nat → Nat} (hf : f 0 = 0) {n : Nat} :
    Reads f n (List.map (mapLineParameter f)) Parameters.Means (items parameter)
      (items parameter) :=
  reads_items hf lists_parameters (reads_parameter hf)

/-- Whatever is read up to the parenthesis that closes the parameters is the beginning of a
declaration, and where reading stops before it, it can be completed to one. -/
theorem gives_readHead : Gives Head.Means (readHead (items parameter)) :=
  (reads_readHead (f := id) (n := 0) rfl (reads_parameters rfl)).toGives

/-- Whatever is read after the parameters completes the declaration. -/
theorem gives_readBody (h : Head) :
    Gives h.Completes
      (readBody expression h.keyword.token.line h.name.name (Parameters.found h.params)) :=
  (reads_readBody (f := id) (n := 0) rfl (reads_expression rfl) h).toGives

/-! ### The end of a statement -/

/-- The semicolon after a statement with the tree `e`. -/
def Ends (e t : Expr) (w : List Token) : Prop :=
  e = t ∧ ∃ semicolon : Terminal (.symbol .semicolon), [semicolon.token] = w

section

variable {f : Nat → Nat} (hf : f 0 = 0) {n : Nat}
include hf

/-- The check for the end of the input consumes nothing. -/
theorem reads_checkEnd : Reads f n id (fun _ w => [] = w) checkEnd checkEnd := by
  refine .peek? fun first => ?_
  cases first with
  | none => exact .pure rfl rfl
  | some t =>
    show Reads f n id (fun _ w => [] = w)
      (if t.kind.isEnd then pure () else failWith .trailingTokens)
      (if t.kind.isEnd then pure () else failWith .trailingTokens)
    cases t.kind.isEnd with
    | true => exact .pure rfl rfl
    | false => exact .failWith hf ⟨(), [], rfl⟩ SyntaxError.stopsAt_trailingTokens

theorem reads_readSemicolon :
    Reads f n id (fun _ w => ∃ semicolon : Terminal (.symbol .semicolon), [semicolon.token] = w)
      readSemicolon readSemicolon := by
  refine .hasSymbol (fun semicolon => .pure ⟨semicolon, rfl⟩ rfl) ?_
  exact .failWith hf ⟨(), _, ⟨⟨.symbol .semicolon, "", ⟨0, 0⟩⟩, rfl⟩, rfl⟩
    SyntaxError.stopsAt_missingSemicolon

/-- The end of a statement adds nothing to its tree. -/
theorem reads_endStatement (e : Expr) :
    Reads f n (mapLines f) (Ends e) (endStatement e) (endStatement (e.mapLines f)) := by
  refine (reads_readSemicolon hf).bind ?_
  rintro _ _ ⟨semicolon, rfl⟩
  refine (reads_checkEnd hf).bind ?_
  rintro _ _ rfl
  exact .pure ⟨rfl, semicolon, rfl⟩ rfl

end

theorem gives_endStatement (e : Expr) : Gives (Ends e) (endStatement e) :=
  (reads_endStatement (f := id) (n := 0) rfl e).toGives

end LetLang.Grammar
