import LetLang.Expr.Read
import LetLang.Proofs.Expr.Lookahead
import LetLang.Proofs.Reader.Reads

/-!
# What the readers of expressions read

One lemma for each production says what its reader does with readers for its parts: it reads what
the grammar derives, with the meaning of the derivation as its result, and does the same on other
lines. A part that is read after a token has been consumed is needed only up to a smaller bound.
The loops then tie the readers together (`reads_expression`).

Three things follow. The readers accept only what is derived, and where they stop, what they have
consumed can be completed. They depend on the tokens that they consume and the next one, and only
copy line numbers. And the bounds of their loops can be forgotten: `expression` is a fixed point of
`readAround` (`expression_eq`), and the loops for operators are described by equations without
bounds.
-/

namespace LetLang.Grammar

open Reader LetLang.Expr

/-! ### What the readers accept -/

/-- The signs of a rank are those of the operators on its level. -/
theorem binaryOfRank?_eq_some {k : Nat} {kind : Token.Kind} {op : BinaryOp} :
    binaryOfRank? k kind = some op ↔ kind = .symbol op.symbol ∧ op ∈ operators k := by
  rw [binaryOfRank?, Option.filter_eq_some_iff, Token.Kind.binaryOp?_eq_some, mem_operators_iff,
    decide_eq_true_iff]

/-- The literals are the tokens that denote a value. -/
theorem literalOf?_eq_some {kind : Token.Kind} {value : Literal} :
    literalOf? kind = some value ↔ Denotes kind value := by
  constructor
  · intro h
    cases kind with
    | number x => cases h; exact .number x
    | quoted s => cases h; exact .quoted s
    | keyword k =>
      cases k <;> cases h
      · exact .true_
      · exact .false_
      · exact .pi
      · exact .euler
    | identifier | symbol | blank | endOfInput => cases h
  · rintro (_ | _) <;> rfl

/-! ### Words of the grammar -/

/-- The tokens `w` are derived from `n` with the meaning `a`. -/
def Means (n : Nonterminal) (a : Meaning n) (w : List Token) : Prop :=
  ∃ d : Derivation n, d.meaning = a ∧ d.yield = w

/-- The tokens `w` are a tail that turns the operand `left` into `e`. -/
def Joins (k : Nat) (left e : Expr) (w : List Token) : Prop :=
  ∃ d : Derivation (.tail k), d.meaning left = e ∧ d.yield = w

/-- A name is an expression. -/
def Derivation.ofName (name : Name) : Derivation .expression :=
  .noLet (.noIf (level 7))
where
  /-- A name is an operand of every level. -/
  level : (k : Nat) → Derivation (.level k)
    | 0 => .noUnary (.noGroup (.noCall (.var name)))
    | k + 1 => .chain (level k) .endTail

/-- Some token that is a name. -/
def someName : Name := ⟨⟨.identifier "", "", ⟨0, 0⟩⟩, "", rfl⟩

/-- There are expressions. -/
theorem exists_means_expression : ∃ e w, Means .expression e w :=
  ⟨_, _, .ofName someName, rfl, rfl⟩

theorem exists_means_level (k : Nat) : ∃ e w, Means (.level k) e w :=
  ⟨_, _, Derivation.ofName.level someName k, rfl, rfl⟩

/-- Arguments are lists of expressions. -/
theorem lists_arguments : Words.Lists (Means .expression) (Means .arguments) where
  nonempty := exists_means_expression
  last := by
    rintro _ _ ⟨d, rfl, rfl⟩
    exact ⟨.lastArgument d, rfl, rfl⟩
  more := by
    rintro _ _ _ _ comma ⟨d, rfl, rfl⟩ ⟨ds, rfl, rfl⟩
    exact ⟨.moreArguments d comma ds, rfl, rfl⟩

/-- Bindings are lists of single bindings. -/
theorem lists_bindings : Words.Lists (Means .binding) (Means .bindings) where
  nonempty := ⟨_, _, .binding someName ⟨⟨.symbol .equal, "", ⟨0, 0⟩⟩, rfl⟩ (.ofName someName), rfl,
    rfl⟩
  last := by
    rintro _ _ ⟨d, rfl, rfl⟩
    exact ⟨.lastBinding d, rfl, rfl⟩
  more := by
    rintro _ _ _ _ comma ⟨d, rfl, rfl⟩ ⟨ds, rfl, rfl⟩
    exact ⟨.moreBindings d comma ds, rfl, rfl⟩

/-! ### Operands -/

section

variable {f : Nat → Nat} (hf : f 0 = 0) {n : Nat} {nested nested' : Reader Expr}
include hf

/-- A name is the first token of a call or a variable, and belongs to its derivation. -/
theorem reads_readNamed {args args' : Reader (List Expr)}
    (hargs : Reads f n (List.map (mapLines f)) (Means .arguments) args args') (name : Name) :
    Reads f n (mapLines f) (Words.after (Means .call) [name.token])
      (readNamed args name.name name.token.line)
      (readNamed args' name.name (f name.token.line)) := by
  refine .hasSymbol (fun left => ?_) (.pure ⟨.noCall (.var name), rfl, rfl⟩ rfl)
  have hclosed : ∀ expected, Reads f (n - 1) (List.map (mapLines f))
      (fun es w => Means .call (.call name.name es name.token.line) (name.token :: left.token :: w))
      (toParen args expected) (toParen args' expected) := by
    refine reads_toParen hf hargs.pred (fun right => ⟨.emptyCall name left right, rfl, rfl⟩) ?_
    rintro _ _ right ⟨ds, rfl, rfl⟩
    exact ⟨.call name left ds right, rfl, rfl⟩
  refine (hclosed _).map (fun _ _ hw => hw) fun es => ?_
  rw [mapLines, mapLinesList_eq_map]

/-- A group and the arguments of a call come after a token. -/
theorem reads_readPrimary {args args' : Reader (List Expr)}
    (hnested : Reads f (n - 1) (mapLines f) (Means .expression) nested nested')
    (hargs : Reads f (n - 1) (List.map (mapLines f)) (Means .arguments) args args') :
    Reads f n (mapLines f) (Means .grouping) (readPrimary nested args)
      (readPrimary nested' args') := by
  refine .hasSymbol (fun left => ?_) (.take? (fun name t hname => ?_) ?_)
  · refine hnested.bind ?_
    rintro _ _ ⟨inner, rfl, rfl⟩
    exact .symbol hf fun right => .pure ⟨.group left inner right, rfl, rfl⟩ rfl
  · refine (reads_readNamed hf hargs ⟨t, name, Token.Kind.identifier?_eq_some.mp hname⟩).weaken ?_
    rintro _ _ ⟨d, rfl, hyield⟩
    exact ⟨.noGroup d, rfl, hyield⟩
  · refine .take hf (.keyword .pi) rfl fun value t hvalue => .pure ?_ rfl
    exact ⟨.noGroup (.noCall (.constant ⟨t, value, literalOf?_eq_some.mp hvalue⟩)), rfl, rfl⟩

omit hf in
/-- The operand of a unary sign comes after it. -/
theorem reads_readSigned {primary primary' operand operand' : Reader Expr}
    (hprimary : Reads f n (mapLines f) (Means .grouping) primary primary')
    (hoperand : Reads f (n - 1) (mapLines f) (Means (.level 0)) operand operand') :
    Reads f n (mapLines f) (Means (.level 0)) (readSigned primary operand)
      (readSigned primary' operand') := by
  refine .take? (fun op t hop => hoperand.map ?_ fun _ => rfl) (hprimary.weaken ?_)
  · rintro _ _ ⟨d, rfl, rfl⟩
    exact ⟨.unary ⟨t, op, Token.Kind.unaryOp?_eq_some.mp hop⟩ d, rfl, rfl⟩
  · rintro _ _ ⟨d, rfl, rfl⟩
    exact ⟨.noUnary d, rfl, rfl⟩

/-- Unary operators may come before any operand, as many as there are. -/
theorem reads_readUnary {primary primary' : Reader Expr}
    (hprimary : Reads f n (mapLines f) (Means .grouping) primary primary') :
    Reads f n (mapLines f) (Means (.level 0)) (readUnary primary) (readUnary primary') :=
  .loop hf (exists_means_level 0) fun _ hm _ _ hmore =>
    reads_readSigned (hprimary.mono hm) hmore

/-! ### Binary operators -/

omit hf in
/-- A sign and its operand are joined to the operand before, whatever line that is on. -/
theorem reads_readJoined {k : Nat} {operand operand' : Reader Expr}
    {more more' : Expr → Reader Expr}
    (hoperand : Reads f (n - 1) (mapLines f) (Means (.level k)) operand operand')
    (hmore : ∀ left, Reads f (n - 1) (mapLines f) (Joins k left) (more left)
      (more' (left.mapLines f))) (left : Expr) :
    Reads f n (mapLines f) (Joins k left) (readJoined operand k more left)
      (readJoined operand' k more' (left.mapLines f)) := by
  refine .take? (fun op t hop => ?_) (.pure ⟨.endTail, rfl, rfl⟩ rfl)
  obtain ⟨hkind, hmem⟩ := binaryOfRank?_eq_some.mp hop
  refine hoperand.bind ?_
  rintro _ _ ⟨right, rfl, rfl⟩
  refine (hmore (.binary op left right.meaning t.line)).weaken ?_
  rintro _ _ ⟨tail, rfl, rfl⟩
  exact ⟨.moreTail ⟨t, op, hkind, hmem⟩ right tail, rfl, rfl⟩

/-- A tail is read from any number of signs and operands. -/
theorem reads_readTail {k : Nat} {operand operand' : Reader Expr}
    (hoperand : Reads f n (mapLines f) (Means (.level k)) operand operand') (left : Expr) :
    Reads f n (mapLines f) (Joins k left) (readTail operand k left)
      (readTail operand' k (left.mapLines f)) :=
  .loopFrom hf (fun left => ⟨left, [], .endTail, rfl, rfl⟩)
    (fun _ hm _ _ hmore => reads_readJoined (hoperand.mono hm).pred hmore) left

omit hf in
/-- The tail of a level goes with the first operand. -/
theorem reads_readChain {k : Nat} {operand operand' : Reader Expr} {tail tail' : Expr → Reader Expr}
    (hoperand : Reads f n (mapLines f) (Means (.level k)) operand operand')
    (htail : ∀ left, Reads f n (mapLines f) (Joins k left) (tail left)
      (tail' (left.mapLines f))) :
    Reads f n (mapLines f) (Means (.level (k + 1))) (readChain operand tail)
      (readChain operand' tail') := by
  refine hoperand.bind ?_
  rintro _ _ ⟨first, rfl, rfl⟩
  refine (htail first.meaning).weaken ?_
  rintro _ _ ⟨d, rfl, rfl⟩
  exact ⟨.chain first d, rfl, rfl⟩

/-- An expression inside an operand comes after a token. -/
theorem reads_readBinary
    (hnested : Reads f (n - 1) (mapLines f) (Means .expression) nested nested') :
    ∀ k, Reads f n (mapLines f) (Means (.level k)) (readBinary nested k) (readBinary nested' k)
  | 0 => reads_readUnary hf (reads_readPrimary hf hnested (reads_items hf lists_arguments hnested))
  | k + 1 =>
    have hoperand := reads_readBinary hnested k
    reads_readChain hoperand (reads_readTail hf hoperand)

/-! ### Expressions -/

/-- The value of a binding comes after its name. -/
theorem reads_readBinding
    (hnested : Reads f (n - 1) (mapLines f) (Means .expression) nested nested') :
    Reads f n (mapLinesBinding f) (Means .binding) (readBinding nested) (readBinding nested') := by
  refine .name hf fun name => .symbol hf fun sign => hnested.pred.map ?_ fun _ => rfl
  rintro _ _ ⟨value, rfl, rfl⟩
  exact ⟨.binding name sign value, rfl, rfl⟩

theorem reads_readLet {bindings bindings' : Reader (List (Binding Expr))}
    (hbindings : Reads f n (List.map (mapLinesBinding f)) (Means .bindings) bindings bindings')
    (hnested : Reads f n (mapLines f) (Means .expression) nested nested')
    (keyword : Terminal (.keyword .let_)) :
    Reads f n (mapLines f) (Words.after (Means .expression) [keyword.token])
      (readLet bindings nested keyword.token.line)
      (readLet bindings' nested' (f keyword.token.line)) := by
  refine hbindings.bind ?_
  rintro _ _ ⟨bs, rfl, rfl⟩
  refine .keyword hf fun separator => hnested.pred.map ?_ fun body => ?_
  · rintro _ _ ⟨body, rfl, rfl⟩
    exact ⟨.letIn keyword bs separator body, rfl, rfl⟩
  · rw [mapLines, mapLinesBindings_eq_map]

theorem reads_readIf (hnested : Reads f n (mapLines f) (Means .expression) nested nested')
    (keyword : Terminal (.keyword .if_)) :
    Reads f n (mapLines f) (Words.after (Means .conditional) [keyword.token])
      (readIf nested keyword.token.line) (readIf nested' (f keyword.token.line)) := by
  refine .symbol hf fun left => hnested.pred.bind ?_
  rintro _ _ ⟨condition, rfl, rfl⟩
  refine .symbol hf fun right => hnested.pred.pred.bind ?_
  rintro _ _ ⟨onTrue, rfl, rfl⟩
  refine .keyword hf fun separator => hnested.pred.pred.pred.map ?_ fun _ => rfl
  rintro _ _ ⟨onFalse, rfl, rfl⟩
  exact ⟨.ifElse keyword left condition right onTrue separator onFalse, rfl, rfl⟩

/-- The parts of an `if` come after its keyword. -/
theorem reads_readConditional {operands operands' : Reader Expr}
    (hnested : Reads f (n - 1) (mapLines f) (Means .expression) nested nested')
    (hoperands : Reads f n (mapLines f) (Means (.level 7)) operands operands') :
    Reads f n (mapLines f) (Means .conditional) (readConditional nested operands)
      (readConditional nested' operands') := by
  refine .keywordLine? (reads_readIf hf hnested) (hoperands.weaken ?_)
  rintro _ _ ⟨d, rfl, rfl⟩
  exact ⟨.noIf d, rfl, rfl⟩

/-- The parts of a `let` come after its keyword. -/
theorem reads_readExpression {bindings bindings' : Reader (List (Binding Expr))}
    {conditional conditional' : Reader Expr}
    (hbindings : Reads f (n - 1) (List.map (mapLinesBinding f)) (Means .bindings) bindings
      bindings')
    (hnested : Reads f (n - 1) (mapLines f) (Means .expression) nested nested')
    (hconditional : Reads f n (mapLines f) (Means .conditional) conditional conditional') :
    Reads f n (mapLines f) (Means .expression) (readExpression bindings nested conditional)
      (readExpression bindings' nested' conditional') := by
  refine .keywordLine? (reads_readLet hf hbindings hnested) (hconditional.weaken ?_)
  rintro _ _ ⟨d, rfl, rfl⟩
  exact ⟨.noLet d, rfl, rfl⟩

/-- An expression inside another one comes after a token of the outer one. -/
theorem reads_readAround
    (hnested : Reads f (n - 1) (mapLines f) (Means .expression) nested nested') :
    Reads f n (mapLines f) (Means .expression) (readAround nested) (readAround nested') :=
  reads_readExpression hf (reads_items hf lists_bindings (reads_readBinding hf hnested.pred))
    hnested (reads_readConditional hf hnested (reads_readBinary hf hnested BinaryOp.rankCount))

/-- Expressions are read, and reading one depends on no token beyond the next one and on no line
number. -/
theorem reads_expression :
    Reads f n (mapLines f) (Means .expression) expression expression :=
  .loop hf exists_means_expression fun _ _ _ _ hmore => reads_readAround hf hmore

theorem reads_arguments :
    Reads f n (List.map (mapLines f)) (Means .arguments) (items expression) (items expression) :=
  reads_items hf lists_arguments (reads_expression hf)

theorem reads_bindings :
    Reads f n (List.map (mapLinesBinding f)) (Means .bindings) (items (readBinding expression))
      (items (readBinding expression)) :=
  reads_items hf lists_bindings (reads_readBinding hf (reads_expression hf))

theorem reads_primaryLevel :
    Reads f n (mapLines f) (Means .grouping) primaryLevel primaryLevel :=
  reads_readPrimary hf (reads_expression hf) (reads_arguments hf)

theorem reads_binaryLevel (k : Nat) :
    Reads f n (mapLines f) (Means (.level k)) (binaryLevel k) (binaryLevel k) :=
  reads_readBinary hf (reads_expression hf) k

theorem reads_conditionalLevel :
    Reads f n (mapLines f) (Means .conditional) conditionalLevel conditionalLevel :=
  reads_readConditional hf (reads_expression hf) (reads_binaryLevel hf BinaryOp.rankCount)

end

/-- Whatever is read as an expression is derived as one, and where reading stops, it can be
completed to one. -/
theorem gives_expression : Gives (Means .expression) expression :=
  (reads_expression (f := id) (n := 0) rfl).toGives

theorem gives_binaryLevel (k : Nat) : Gives (Means (.level k)) (binaryLevel k) :=
  (reads_binaryLevel (f := id) (n := 0) rfl k).toGives

theorem gives_conditionalLevel : Gives (Means .conditional) conditionalLevel :=
  (reads_conditionalLevel (f := id) (n := 0) rfl).toGives

end LetLang.Grammar

/-! ### Fixed points -/

namespace LetLang.Expr

open Reader Grammar

/-- An expression is read by reading the expressions inside it in the same way. -/
theorem expression_eq : expression = readAround expression :=
  loop_eq mapLines_id exists_means_expression fun _ _ _ hmore => reads_readAround rfl hmore

/-- An operand is a unary operator before an operand, or it has no operator before it. -/
theorem binaryLevel_zero_eq : binaryLevel 0 = readSigned primaryLevel (binaryLevel 0) :=
  loop_eq mapLines_id (exists_means_level 0) fun _ _ _ hmore =>
    reads_readSigned (reads_primaryLevel rfl) hmore

/-- What follows the operand `left` is an operator with an operand that it joins to `left`, or
nothing. -/
theorem readTail_eq (k : Nat) (left : Expr) :
    readTail (binaryLevel k) k left =
      readJoined (binaryLevel k) k (readTail (binaryLevel k) k) left :=
  loopFrom_eq mapLines_id mapLines_id (fun left => ⟨left, [], .endTail, rfl, rfl⟩)
    (fun _ _ _ _ _ hmore => reads_readJoined (reads_binaryLevel rfl k) hmore) left

/-- Arguments are an expression, and after a comma more arguments. -/
theorem arguments_eq : items expression = itemsWith expression (items expression) :=
  items_eq mapLines_id lists_arguments fun _ => reads_expression rfl

/-- Bindings are a binding, and after a comma more bindings. -/
theorem bindings_eq :
    items (readBinding expression) =
      itemsWith (readBinding expression) (items (readBinding expression)) :=
  items_eq mapLinesBinding_id lists_bindings fun _ => reads_readBinding rfl (reads_expression rfl)

end LetLang.Expr
