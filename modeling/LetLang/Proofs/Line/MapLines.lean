import LetLang.Proofs.Eval.MapLines
import LetLang.Proofs.Expr.Follows
import LetLang.Proofs.Line.FirstError

/-!
# Lines with other numbers

A source text without a newline is on one line, and every position in it is on that line. So giving
it another number changes the line of each token, of each error and of each node of its tree, and
nothing else: not the columns, not what the line prints, and not its value (`Line.effect_mapLine`).
Lexical and syntax errors are on the line itself (`Line.atLine_of_parse`), and runtime errors do not
show their line.
-/

namespace LetLang

/-! ### Scanning -/

/-- The same error on another line. -/
def LexicalError.mapLine (f : Nat → Nat) (e : LexicalError) : LexicalError :=
  ⟨e.fault, e.lexeme, e.position.mapLine f⟩

theorem Position.after_mapLine (f : Nat → Nat) (p : Position) {cs : List Char} (h : '\n' ∉ cs) :
    (p.mapLine f).after cs = (p.after cs).mapLine f := by
  induction cs generalizing p with
  | nil => rfl
  | cons c cs ih =>
    rw [List.mem_cons, not_or] at h
    have hnext : ∀ q : Position, q.next c = ⟨q.line, q.column + 1⟩ := fun q => if_neg (Ne.symm h.1)
    rw [after_cons, after_cons, hnext, hnext]
    exact ih ⟨p.line, p.column + 1⟩ h.2

namespace Token

theorem place_mapLine (f : Nat → Nat) (p : Position) {ps : List Piece}
    (h : ∀ q ∈ ps, '\n' ∉ q.chars) :
    place (p.mapLine f) ps =
      (place p ps).map fun q => ⟨q.toPiece, q.position.mapLine f⟩ := by
  induction ps generalizing p with
  | nil => rfl
  | cons q ps ih =>
    obtain ⟨hq, hps⟩ := List.forall_mem_cons.mp h
    rw [place, Position.after_mapLine f p hq, ih _ hps]
    rfl

/-- On another line there are the same tokens and errors. -/
theorem scan_mapLine (f : Nat → Nat) (n : Nat) {source : String} (h : '\n' ∉ source.toList) :
    scan source (f n) =
      ⟨(scan source n).tokens.map (mapLine f), (scan source n).errors.map (.mapLine f)⟩ := by
  have hpieces : ∀ q ∈ pieces source.toList, '\n' ∉ q.chars := by
    intro q hq hmem
    rw [← flatten_pieces source.toList] at h
    exact h (List.mem_flatMap.mpr ⟨q, hq, hmem⟩)
  have hplace := place_mapLine f (.startOf n) hpieces
  have hend := Position.after_mapLine f (.startOf n) h
  have htoken : ∀ q : PlacedPiece,
      (PlacedPiece.mk q.toPiece (q.position.mapLine f)).token? = q.token?.map (mapLine f) := by
    intro ⟨⟨reading, chars⟩, position⟩
    cases reading <;> rfl
  have herror : ∀ q : PlacedPiece,
      (PlacedPiece.mk q.toPiece (q.position.mapLine f)).error? = q.error?.map (.mapLine f) := by
    intro ⟨⟨reading, chars⟩, position⟩
    cases reading <;> rfl
  rw [scan_eq_place, scan_eq_place]
  show Scan.mk ((place ((Position.startOf n).mapLine f) _).filterMap _ ++
    [endAt (((Position.startOf n).mapLine f).after _)])
    ((place ((Position.startOf n).mapLine f) _).filterMap _) = _
  rw [hplace, hend, List.filterMap_map, List.filterMap_map]
  simp only [List.map_append, List.map_filterMap, Function.comp_def, htoken, herror]
  rfl

theorem line_of_mem_tokens {n : Nat} {source : String} (h : '\n' ∉ source.toList) {t : Token}
    (ht : t ∈ (scan source n).tokens) : t.position.line = n := by
  have hscan := congrArg Scan.tokens (scan_mapLine (fun _ => n) n h)
  rw [hscan] at ht
  obtain ⟨u, -, rfl⟩ := List.mem_map.mp ht
  rfl

end Token

/-! ### Failures -/

namespace Failure

/-- The same failure on other lines. -/
def mapLine (f : Nat → Nat) : Failure → Failure
  | lexical errors => .lexical (errors.map (.mapLine f))
  | syntactic e => .syntactic (e.mapLine f)
  | runtime e => .runtime (e.mapLine f)
  | tooDeep => .tooDeep

/-- The same failure, with all errors on line `n`. -/
def atLine (n : Nat) : Failure → Failure := mapLine fun _ => n

theorem mapLine_mapLine (f g : Nat → Nat) (x : Failure) :
    (x.mapLine f).mapLine g = x.mapLine fun n => g (f n) := by
  cases x with
  | lexical errors => exact congrArg lexical (List.map_map ..)
  | syntactic e => rfl
  | runtime e => rfl
  | tooDeep => rfl

end Failure

theorem Outcome.result_mapLine (f : Nat → Nat) (o : Outcome α) :
    (o.mapLine f).result = o.result.mapError (.mapLine f) := by
  cases o <;> rfl

/-- The tokens of parameters are in their yield. -/
theorem Grammar.Parameters.token_mem_yield {ps : Parameters} {p : Name} (h : p ∈ ps.list) :
    p.token ∈ ps.yield := by
  induction ps with
  | last name =>
    obtain rfl := List.mem_singleton.mp h
    exact List.mem_cons_self
  | more name comma ps ih =>
    rcases List.mem_cons.mp h with rfl | h
    · exact List.mem_cons_self
    · exact List.mem_cons_of_mem _ (List.mem_cons_of_mem _ (ih h))

theorem Grammar.Head.Repeats.token_mem {h : Head} {p : Name} (hp : h.Repeats p) :
    p.token ∈ h.yield := by
  obtain ⟨before, after, hsplit, -⟩ := hp
  have hmem : p ∈ h.parameters := by
    rw [hsplit]
    exact List.mem_append_right before List.mem_cons_self
  unfold Head.parameters at hmem
  unfold Head.yield
  cases hparams : h.params with
  | none =>
    rw [hparams] at hmem
    cases hmem
  | some ps =>
    rw [hparams] at hmem
    have htoken := Parameters.token_mem_yield hmem
    simp [htoken]

namespace Line

/-- A syntax error of a line is at one of its tokens. -/
theorem exists_position_eq {source : String} {line : Nat} {e : SyntaxError}
    (he : Expr.ofTokens (Token.scan source line).tokens = .error e) :
    ∃ t ∈ (Token.scan source line).tokens, e.position = t.position := by
  rcases ofTokens_scan_eq_error he with
    ⟨before, t, after, hsplit, -, hstops, -⟩ | ⟨head, p, after, hp, hsplit, rfl⟩
  · rw [hsplit]
    exact ⟨t, List.mem_append_right before List.mem_cons_self, hstops.position⟩
  · rw [hsplit]
    exact ⟨p.token, List.mem_append_left after hp.token_mem, rfl⟩

variable {source : String} (h : '\n' ∉ source.toList)
include h

/-- The errors of a line that cannot be parsed are on that line. -/
theorem atLine_of_parse {n : Nat} {x : Failure} (hparse : parse source n = .error x) :
    x.atLine n = x := by
  obtain ⟨-, rfl⟩ | ⟨-, e, he, rfl⟩ := parse_error_cases hparse
  · exact congrArg Failure.lexical (congrArg Token.Scan.errors (Token.scan_mapLine _ n h)).symm
  · obtain ⟨t, ht, hposition⟩ := exists_position_eq he
    have hline : e.position.line = n := hposition ▸ Token.line_of_mem_tokens h ht
    show Failure.syntactic ⟨e.fault, e.found, ⟨n, e.position.column⟩⟩ = _
    rw [← hline]

variable {f : Nat → Nat} (hf : f 0 = 0)
include hf

/-- With another number a line has the same tree, or fails in the same way. -/
theorem parse_mapLine (n : Nat) :
    parse source (f n) =
      match parse source n with
      | .ok tree => .ok (tree.mapLines f)
      | .error x => .error (x.mapLine f) := by
  dsimp only [parse]
  rw [Token.scan_mapLine f n h, List.isEmpty_map, Expr.ofTokens_mapLine hf]
  cases (Token.scan source n).errors.isEmpty with
  | false => rfl
  | true =>
    simp only [if_true]
    cases Expr.ofTokens (Token.scan source n).tokens <;> rfl

/-- With another number, and among functions on other lines, a line has the same effect. -/
theorem effect_mapLine (depth n : Nat) (w : World) :
    effect depth source (f n) (w.mapLines f) =
      ⟨(effect depth source n w).result.mapError (.mapLine f), (effect depth source n w).printed,
        (effect depth source n w).world.mapLines f⟩ := by
  unfold effect
  rw [parse_mapLine h hf]
  cases parse source n with
  | error x => rfl
  | ok tree =>
    dsimp only
    rw [Expr.evalIn_onLines f depth tree (fun _ => none) w]
    simp only [Result.mapLines, Outcome.result_mapLine]

end Line

end LetLang
