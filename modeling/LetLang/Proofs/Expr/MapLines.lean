import LetLang.Expr.Text
import LetLang.Reader

/-!
# Other line numbers

What becomes of tokens, syntax errors and trees when every line number `n` in them is replaced by
`f n`. Nothing else changes: kinds, lexemes and columns are the same, and so are the shape of a tree
and its printed form.
-/

namespace LetLang

/-- The same column of another line. -/
def Position.mapLine (f : Nat → Nat) (p : Position) : Position := ⟨f p.line, p.column⟩

/-- The same token on another line. -/
def Token.mapLine (f : Nat → Nat) (t : Token) : Token :=
  ⟨t.kind, t.lexeme, t.position.mapLine f⟩

/-- The same error on another line. -/
def SyntaxError.mapLine (f : Nat → Nat) (e : SyntaxError) : SyntaxError :=
  ⟨e.fault, e.found, e.position.mapLine f⟩

namespace Expr

mutual

/-- The same tree on other lines. -/
def mapLines (f : Nat → Nat) : Expr → Expr
  | literal v n => literal v (f n)
  | unary op operand n => unary op (mapLines f operand) (f n)
  | binary op left right n => binary op (mapLines f left) (mapLines f right) (f n)
  | conditional c t e n => conditional (mapLines f c) (mapLines f t) (mapLines f e) (f n)
  | var name n => var name (f n)
  | letIn bindings body n => letIn (mapLinesBindings f bindings) (mapLines f body) (f n)
  | function name params body n => function name params (mapLines f body) (f n)
  | call name args n => call name (mapLinesList f args) (f n)

/-- The same trees on other lines. -/
def mapLinesList (f : Nat → Nat) : List Expr → List Expr
  | [] => []
  | e :: es => mapLines f e :: mapLinesList f es

/-- The same bindings on other lines. -/
def mapLinesBindings (f : Nat → Nat) : List (Binding Expr) → List (Binding Expr)
  | [] => []
  | ⟨name, value, n⟩ :: bs => ⟨name, mapLines f value, f n⟩ :: mapLinesBindings f bs

end

/-- The same binding on other lines. -/
def mapLinesBinding (f : Nat → Nat) (b : Binding Expr) : Binding Expr :=
  ⟨b.name, b.value.mapLines f, f b.line⟩

/-- The same parameter on another line. -/
def mapLineParameter (f : Nat → Nat) (p : String × Token) : String × Token := (p.1, p.2.mapLine f)

theorem mapLinesList_eq_map (f : Nat → Nat) (es : List Expr) :
    mapLinesList f es = es.map (mapLines f) := by
  induction es with
  | nil => rfl
  | cons e es ih => rw [mapLinesList, ih, List.map_cons]

theorem mapLinesBindings_eq_map (f : Nat → Nat) (bs : List (Binding Expr)) :
    mapLinesBindings f bs = bs.map (mapLinesBinding f) := by
  induction bs with
  | nil => rfl
  | cons b bs ih =>
    rw [List.map_cons, ← ih]
    rfl

theorem length_mapLinesList (f : Nat → Nat) (es : List Expr) :
    (mapLinesList f es).length = es.length := by
  rw [mapLinesList_eq_map, List.length_map]

theorem line_mapLines (f : Nat → Nat) (e : Expr) : (e.mapLines f).line = f e.line := by
  cases e <;> rfl

mutual

/-- Line numbers are not printed. -/
theorem text_mapLines (f : Nat → Nat) : ∀ e : Expr, (e.mapLines f).text = e.text
  | literal _ _ => rfl
  | unary _ operand _ => by simp only [mapLines, text, text_mapLines f operand]
  | binary _ left right _ => by
    simp only [mapLines, text, text_mapLines f left, text_mapLines f right]
  | conditional c t e _ => by
    simp only [mapLines, text, text_mapLines f c, text_mapLines f t, text_mapLines f e]
  | var _ _ => rfl
  | letIn bindings body _ => by
    simp only [mapLines, text, bindingTexts_mapLines f bindings, text_mapLines f body]
  | function _ _ body _ => by simp only [mapLines, text, text_mapLines f body]
  | call _ args _ => by simp only [mapLines, text, texts_mapLines f args]

theorem texts_mapLines (f : Nat → Nat) : ∀ es : List Expr, texts (mapLinesList f es) = texts es
  | [] => rfl
  | e :: es => by simp only [mapLinesList, texts, text_mapLines f e, texts_mapLines f es]

theorem bindingTexts_mapLines (f : Nat → Nat) :
    ∀ bs : List (Binding Expr), bindingTexts (mapLinesBindings f bs) = bindingTexts bs
  | [] => rfl
  | ⟨_, value, _⟩ :: bs => by
    simp only [mapLinesBindings, bindingTexts, text_mapLines f value, bindingTexts_mapLines f bs]

end

mutual

/-- A tree on its own lines is itself. -/
theorem mapLines_id : ∀ e : Expr, e.mapLines id = e
  | literal _ _ => rfl
  | unary _ operand _ => by rw [mapLines, mapLines_id operand, id]
  | binary _ left right _ => by rw [mapLines, mapLines_id left, mapLines_id right, id]
  | conditional c t e _ => by rw [mapLines, mapLines_id c, mapLines_id t, mapLines_id e, id]
  | var _ _ => rfl
  | letIn bindings body _ => by rw [mapLines, mapLinesBindings_id bindings, mapLines_id body, id]
  | function _ _ body _ => by rw [mapLines, mapLines_id body, id]
  | call _ args _ => by rw [mapLines, mapLinesList_id args, id]

theorem mapLinesList_id : ∀ es : List Expr, mapLinesList id es = es
  | [] => rfl
  | e :: es => by rw [mapLinesList, mapLines_id e, mapLinesList_id es]

theorem mapLinesBindings_id : ∀ bs : List (Binding Expr), mapLinesBindings id bs = bs
  | [] => rfl
  | ⟨_, value, _⟩ :: bs => by rw [mapLinesBindings, mapLines_id value, mapLinesBindings_id bs, id]

end

/-- A binding on its own lines is itself. -/
theorem mapLinesBinding_id (b : Binding Expr) : mapLinesBinding id b = b := by
  rw [mapLinesBinding, mapLines_id, id]

/-- Two trees that differ in nothing but their line numbers. -/
def SameUpToLines (e e' : Expr) : Prop := e.mapLines (fun _ => 0) = e'.mapLines fun _ => 0

end Expr

end LetLang
