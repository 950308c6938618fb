import LetLang.Proofs.Expr.Declaration

/-!
# What the readers of statements depend on

The readers of statements look one token ahead and copy line numbers into their trees and errors
without looking at them (`follows_statement`). One half of this says that a syntax error depends on
the tokens up to the one that it is reported at and on no later one (`run_statement_append`); the
other half, that a statement on other lines is read as the same tree on those lines
(`ofTokens_mapLine`).
-/

namespace LetLang.Expr

open Reader Grammar

variable {f : Nat → Nat} {n : Nat}

/-! ### Declarations -/

/-- Which parameter repeats an earlier one does not depend on their lines. -/
theorem firstRepeated?_map (seen : List String) (ps : List (String × Token)) :
    firstRepeated? seen (ps.map (mapLineParameter f)) =
      (firstRepeated? seen ps).map (mapLineParameter f) := by
  induction ps generalizing seen with
  | nil => rfl
  | cons p ps ih =>
    rw [List.map_cons, mapLineParameter, firstRepeated?, firstRepeated?]
    by_cases hseen : p.1 ∈ seen
    · rw [if_pos hseen, if_pos hseen, Option.map_some]
      rfl
    · rw [if_neg hseen, if_neg hseen, ih]

/-- The check of the parameters reports the same repeated one on its other line. -/
theorem follows_checkDistinct (function : String) (ps : List (String × Token)) :
    Follows f n id (checkDistinct function ps)
      (checkDistinct function (ps.map (mapLineParameter f))) := by
  unfold checkDistinct
  rw [firstRepeated?_map]
  cases firstRepeated? [] ps with
  | none => exact .pure rfl
  | some p => exact .throw rfl

/-- The check of the parameters is between two readers of the grammar. -/
theorem follows_readDeclaration (hf : f 0 = 0)
    {parameters parameters' : Reader (List (String × Token))} {nested nested' : Reader Expr}
    (hparams : Reads f (n - 1) (List.map (mapLineParameter f)) Parameters.Means parameters
      parameters')
    (hnested : Reads f n (mapLines f) (Means .expression) nested nested') :
    Follows f n (mapLines f) (readDeclaration parameters nested)
      (readDeclaration parameters' nested') := by
  have hhead := reads_readHead hf hparams
  refine hhead.follows.bind fun ts x rest hrun => ?_
  obtain ⟨_, -, h, rfl, -⟩ := hhead.ok hrun
  refine (follows_checkDistinct h.name.name _).bind fun _ _ _ _ => ?_
  exact (reads_readBody hf hnested h).follows

/-! ### Statements -/

theorem follows_startsDeclaration : Follows f n id startsDeclaration startsDeclaration :=
  Follows.peek?.bind fun _ first _ _ => .pure (by cases first <;> rfl)

/-- What a statement begins with decides how it is read, whatever line it is on. -/
theorem follows_readStatement (hf : f 0 = 0) {declaration declaration' nested nested' : Reader Expr}
    (hdeclaration : Follows f n (mapLines f) declaration declaration')
    (hnested : Follows f n (mapLines f) nested nested') :
    Follows f n (mapLines f) (readStatement declaration nested)
      (readStatement declaration' nested') := by
  have hend (e : Expr) := (reads_endStatement hf (n := n) e).follows
  refine follows_startsDeclaration.bind fun _ starts _ _ => ?_
  cases starts with
  | true => exact hdeclaration.bind fun _ e _ _ => hend e
  | false => exact hnested.bind fun _ e _ _ => hend e

variable (hf : f 0 = 0)
include hf

theorem follows_declaration : Follows f n (mapLines f) declaration declaration :=
  follows_readDeclaration hf (reads_parameters hf) (reads_expression hf)

theorem follows_statement : Follows f n (mapLines f) statement statement :=
  follows_readStatement hf (follows_declaration hf) (reads_expression hf).follows

/-! ### Consequences -/

/-- A statement on other lines is read as the same tree on those lines, or stopped by the same error
there. -/
theorem ofTokens_mapLine (ts : List Token) :
    ofTokens (ts.map (Token.mapLine f)) = mapResult f (mapLines f) (ofTokens ts) := by
  obtain ⟨w, hsplit, hfollows⟩ :=
    follows_statement hf (n := ts.length + 1) (Prod.eta (statement.run ts)).symm
  have hlength : w.length < ts.length + 1 := by
    rw [← hsplit, List.length_append]
    omega
  have hrun := hfollows hlength _ (List.head?_map ..)
  rw [← List.map_append, hsplit] at hrun
  exact congrArg Prod.fst hrun

omit hf in
/-- Reading a statement stops in the same way, whatever follows the token that stops it. -/
theorem run_statement_append {before rest : List Token} {e : SyntaxError}
    (h : statement.run (before ++ rest) = (.error e, rest)) (rest' : List Token)
    (hfirst : rest'.head? = rest.head?) :
    statement.run (before ++ rest') = (.error e, rest') :=
  (follows_statement rfl).run_append mapLines_id h hfirst

end LetLang.Expr
