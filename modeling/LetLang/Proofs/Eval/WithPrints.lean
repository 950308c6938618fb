import LetLang.Proofs.Eval.Errors
import LetLang.Proofs.Eval.Refinement

/-!
# Printing on the way

`Expr.withPrints` puts a call of `print` around any choice of the trees in a tree. Since `print`
gives back what it is given, and cannot be declared anew, this changes only what is printed
(`Expr.evalUpTo_withPrints`): the tree still evaluates to the same value, or still raises the same
error. An error about a condition shows the text and the line of the condition, and so it shows
those of the new one.

`Result.Echoes` says this of two results. It passes through `bind`, and a call of `print` around the
second evaluation only adds to what is printed, so that the main induction is on the tree alone: the
bodies of functions are the same in both evaluations.
-/

namespace LetLang

/-! ### Positions in a tree -/

/-- Which trees in a tree to print: for a position, the line of the call of `print`, if there is to
be one. A position gives the numbers of the children to go to, from the root on. -/
abbrev Marks : Type := List Nat → Option Nat

/-- The marks for the tree at a position. -/
def Marks.below (marks : Marks) (path : List Nat) : Marks := fun rest => marks (path ++ rest)

namespace Expr

/-- The trees right below the root, from left to right. The body of a declaration is not evaluated
with the tree, and does not count. -/
def children : Expr → List Expr
  | literal .. | var .. | function .. => []
  | unary _ operand _ => [operand]
  | binary _ left right _ => [left, right]
  | conditional condition onTrue onFalse _ => [condition, onTrue, onFalse]
  | letIn bindings body _ => bindings.map Binding.value ++ [body]
  | call _ args _ => args

/-- The tree at a position. -/
def at? : Expr → List Nat → Option Expr
  | e, [] => some e
  | e, i :: path =>
    match e.children[i]? with
    | some s => s.at? path
    | none => none

/-- The tree in a call of `print`, if there is a line for one. -/
def printedOn : Option Nat → Expr → Expr
  | some line, e => call "print" [e] line
  | none, e => e

mutual

/-- The tree with calls of `print` around the trees at the marked positions. -/
def withPrints (marks : Marks) : Expr → Expr
  | literal v line => printedOn (marks []) (literal v line)
  | unary op operand line =>
    printedOn (marks []) (unary op (withPrints (marks.below [0]) operand) line)
  | binary op left right line =>
    printedOn (marks []) (binary op (withPrints (marks.below [0]) left)
      (withPrints (marks.below [1]) right) line)
  | conditional condition onTrue onFalse line =>
    printedOn (marks []) (conditional (withPrints (marks.below [0]) condition)
      (withPrints (marks.below [1]) onTrue) (withPrints (marks.below [2]) onFalse) line)
  | var name line => printedOn (marks []) (var name line)
  | letIn bindings body line =>
    printedOn (marks []) (letIn (bindingsWithPrints marks 0 bindings)
      (withPrints (marks.below [bindings.length]) body) line)
  | function name params body line => printedOn (marks []) (function name params body line)
  | call name args line => printedOn (marks []) (call name (listWithPrints marks 0 args) line)

/-- The same for the trees of a list, which are children of one tree, the first one number `i`. -/
def listWithPrints (marks : Marks) : Nat → List Expr → List Expr
  | _, [] => []
  | i, e :: es => withPrints (marks.below [i]) e :: listWithPrints marks (i + 1) es

/-- The same for what the bindings of a `let` bind names to. -/
def bindingsWithPrints (marks : Marks) : Nat → List (Binding Expr) → List (Binding Expr)
  | _, [] => []
  | i, ⟨name, value, line⟩ :: bs =>
    ⟨name, withPrints (marks.below [i]) value, line⟩ :: bindingsWithPrints marks (i + 1) bs

end

/-- The first of some trees that are children from number `i` on is child number `i`, and the others
are children from the next number on. -/
theorem children_of_cons {parent e : Expr} {es : List Expr} {i : Nat}
    (h : e :: es <+: parent.children.drop i) :
    parent.children[i]? = some e ∧ es <+: parent.children.drop (i + 1) := by
  obtain ⟨more, hmore⟩ := h
  constructor
  · rw [← List.head?_drop, ← hmore]
    rfl
  · rw [← List.tail_drop, ← hmore]
    exact List.prefix_append es more

theorem length_listWithPrints (marks : Marks) (i : Nat) (es : List Expr) :
    (listWithPrints marks i es).length = es.length := by
  induction es generalizing i with
  | nil => simp only [listWithPrints]
  | cons e es ih => simp only [listWithPrints, List.length_cons, ih]

/-- The second error is what the first one is in the tree with calls of `print`, if `F` are the
declared functions: the same, unless it is about a condition of the tree itself. -/
inductive SameError (e : Expr) (marks : Marks) (F : FunctionTable) :
    RuntimeError → RuntimeError → Prop
  | other {x : RuntimeError} (h : x.fault ≠ .conditionNotBool) : SameError e marks F x x
  /-- The conditions in the bodies of functions are as they were. -/
  | inBody {condition onTrue onFalse : Expr} {line : Nat}
    (h : F.InBody (.conditional condition onTrue onFalse line)) :
    SameError e marks F ⟨.conditionNotBool, condition.text, condition.line⟩
      ⟨.conditionNotBool, condition.text, condition.line⟩
  | condition {path : List Nat} {condition onTrue onFalse : Expr} {line : Nat}
    (h : e.at? path = some (.conditional condition onTrue onFalse line)) :
    SameError e marks F ⟨.conditionNotBool, condition.text, condition.line⟩
      ⟨.conditionNotBool, (condition.withPrints (marks.below (path ++ [0]))).text,
        (condition.withPrints (marks.below (path ++ [0]))).line⟩

namespace SameError

variable {e : Expr} {marks : Marks} {F : FunctionTable} {x x' : RuntimeError}

/-- The errors of a child are errors of the tree. -/
theorem of_child {i : Nat} {s : Expr} (hs : e.children[i]? = some s)
    (h : s.SameError (marks.below [i]) F x x') : e.SameError marks F x x' := by
  cases h with
  | other h => exact .other h
  | inBody h => exact .inBody h
  | @condition path condition onTrue onFalse line h =>
    have hpath : e.at? (i :: path) = some (.conditional condition onTrue onFalse line) := by
      rw [at?, hs]
      exact h
    exact .condition hpath

/-- An error that no condition of the tree has raised stays as it is. -/
theorem of_justified {node : Expr → Prop} {ρ : Env}
    (h : x.Justified (fun s => node s ∨ F.InBody s) ρ F)
    (hnode : ∀ condition onTrue onFalse line, ¬ node (.conditional condition onTrue onFalse line)) :
    e.SameError marks F x x := by
  by_cases hfault : x.fault = .conditionNotBool
  · obtain ⟨condition, onTrue, onFalse, line, hmem, htoken, hline⟩ := h.exists_conditional hfault
    have hbody := hmem.resolve_left (hnode condition onTrue onFalse line)
    have hx : x = ⟨.conditionNotBool, condition.text, condition.line⟩ := by
      rw [← hfault, ← htoken, ← hline]
    rw [hx]
    exact .inBody hbody
  · exact .other hfault

end SameError

end Expr

/-! ### Results that print more -/

/-- The evaluations end alike, with errors that are related by `R`. -/
inductive Outcome.Agrees (R : RuntimeError → RuntimeError → Prop) : Outcome α → Outcome α → Prop
  | value (a : α) : Agrees R (.value a) (.value a)
  | error {e e' : RuntimeError} (h : R e e') : Agrees R (.error e) (.error e')
  | tooDeep : Agrees R .tooDeep .tooDeep

theorem Outcome.Agrees.mono {R R' : RuntimeError → RuntimeError → Prop} {o o' : Outcome α}
    (h : o.Agrees R o') (hR : ∀ x x', R x x' → R' x x') : o.Agrees R' o' := by
  cases h with
  | value a => exact .value a
  | error h => exact .error (hR _ _ h)
  | tooDeep => exact .tooDeep

/-- The second result is as the first, with errors that are related by `R`, apart from further
values that are printed in between. -/
structure Result.Echoes (R : FunctionTable → RuntimeError → RuntimeError → Prop)
    (r r' : Result α) : Prop where
  outcome : r.outcome.Agrees (R r.world.functions) r'.outcome
  printed : r.printed.Sublist r'.printed
  world : r'.world = r.world

namespace Result.Echoes

open PureEval

variable {R R' : FunctionTable → RuntimeError → RuntimeError → Prop}

theorem mono {r r' : Result α} (h : r.Echoes R r') (hR : ∀ F x x', R F x x' → R' F x x') :
    r.Echoes R' r' :=
  ⟨h.outcome.mono (hR _), h.printed, h.world⟩

/-- A result echoes itself, if its error may stay as it is. -/
theorem of_error {m : PureEval α} {w : World}
    (h : ∀ w' e printed, m.run w = ⟨.error e, printed, w'⟩ → R w'.functions e e) :
    (m.run w).Echoes R (m.run w) := by
  refine ⟨?_, List.Sublist.refl _, rfl⟩
  rcases hrun : m.run w with ⟨a | e | _, printed, w'⟩
  · exact .value a
  · exact .error (h w' e printed hrun)
  · exact .tooDeep

theorem pure (a : α) (w : World) :
    ((Pure.pure a : PureEval α).run w).Echoes R ((Pure.pure a : PureEval α).run w) :=
  ⟨.value a, List.Sublist.refl _, rfl⟩

/-- Of the evaluations after the first one it is enough to know something for the value that the
first one has. -/
theorem bind {m m' : PureEval α} {f f' : α → PureEval β} {w : World}
    (hm : (m.run w).Echoes R (m'.run w))
    (hf : ∀ a printed w', m.run w = ⟨.value a, printed, w'⟩ →
      ((f a).run w').Echoes R ((f' a).run w')) :
    ((m >>= f).run w).Echoes R ((m' >>= f').run w) := by
  obtain ⟨houtcome, hprinted, hworld⟩ := hm
  rw [run_bind, run_bind]
  rcases hrun : m.run w with ⟨outcome, printed, w₁⟩
  rcases hrun' : m'.run w with ⟨outcome', printed', w₁'⟩
  rw [hrun, hrun'] at houtcome hprinted hworld
  obtain rfl : w₁' = w₁ := hworld
  cases houtcome with
  | value a =>
    have hsecond := hf a printed w₁' hrun
    exact ⟨hsecond.outcome, hprinted.append hsecond.printed, hsecond.world⟩
  | error h => exact ⟨.error h, hprinted, rfl⟩
  | tooDeep => exact ⟨.tooDeep, hprinted, rfl⟩

end Result.Echoes

/-! ### Trees -/

namespace Expr

open PureEval

section

variable {enter : Expr → Env → PureEval Value}

/-- A call of `print` evaluates its argument, and prints and returns what that gives. -/
theorem evalInWith_print (e : Expr) (line : Nat) (ρ : Env) :
    evalInWith enter (call "print" [e] line) ρ =
      evalInWith enter e ρ >>= fun v => PureEval.print v >>= fun _ => pure v := by
  have hprint : Builtin.find? "print" [e].length = some .print := rfl
  simp only [evalInWith, hprint, evalListInWith, bind_assoc, pure_bind]
  rfl

/-- Printing what the second tree evaluates to adds to what is printed. -/
theorem echoes_printedOn {R : FunctionTable → RuntimeError → RuntimeError → Prop}
    {r : Result Value} {e : Expr} {ρ : Env} {w : World}
    (h : r.Echoes R ((evalInWith enter e ρ).run w)) (line : Option Nat) :
    r.Echoes R ((evalInWith enter (printedOn line e) ρ).run w) := by
  cases line with
  | none => exact h
  | some line =>
    obtain ⟨houtcome, hprinted, hworld⟩ := h
    rw [printedOn, evalInWith_print, run_bind]
    rcases hrun : (evalInWith enter e ρ).run w with ⟨v | x | _, printed, w'⟩ <;>
      rw [hrun] at houtcome hprinted hworld
    · exact ⟨houtcome, hprinted.trans (List.sublist_append_left printed [v]), hworld⟩
    · exact ⟨houtcome, hprinted, hworld⟩
    · exact ⟨houtcome, hprinted, hworld⟩

/-- What a node of the tree other than a conditional does by itself may stay as it is. -/
theorem echoes_of_explains {e : Expr} {ρ : Env} {m : PureEval α} (hm : m.Explains (e = ·) ρ)
    (he : ∀ condition onTrue onFalse line, e ≠ conditional condition onTrue onFalse line)
    (marks : Marks) (w : World) : (m.run w).Echoes (e.SameError marks) (m.run w) :=
  .of_error fun w' x printed hrun => .of_justified (hm w w' x printed hrun) he

/-- A call with other arguments, which echo those of the first. -/
theorem echoes_call (hgrows : ∀ e ρ, (enter e ρ).Grows)
    (henter : ∀ e ρ, (enter e ρ).Explains (· ∈ e.subtrees) ρ) {name : String}
    {args args' : List Expr} {line : Nat} {marks : Marks} {ρ : Env}
    (hlength : args'.length = args.length)
    (hargs : ∀ w, ((evalListInWith enter args ρ).run w).Echoes
      ((call name args line).SameError marks) ((evalListInWith enter args' ρ).run w))
    (w : World) :
    ((evalInWith enter (call name args line) ρ).run w).Echoes
      ((call name args line).SameError marks)
      ((evalInWith enter (call name args' line) ρ).run w) := by
  simp only [evalInWith, hlength]
  cases hb : Builtin.find? name args.length with
  | some b =>
    refine (hargs w).bind fun vs p w₁ hvs => .of_error fun w' x printed hrun => ?_
    have hmismatch := isMismatch_of_dispatch hb hvs hrun
    exact .other (RuntimeError.Justified.fault_ne hmismatch (by simp))
  | none =>
    have hbuiltin : Builtin.isBuiltin name args.length = false := by
      rw [Builtin.isBuiltin, hb]
      rfl
    have hself : call name args line = call name args line := rfl
    obtain ⟨f, hf, hfind⟩ | ⟨x, hfind, hx⟩ := run_findFunction (ρ := ρ) hself hbuiltin w
    · refine Result.Echoes.bind (.of_error fun w' x p hrun => ?_) fun g p w₁ hrun => ?_
      · rw [hfind] at hrun
        cases hrun
      · rw [hfind] at hrun
        obtain ⟨⟨rfl⟩, -, rfl⟩ := Result.mk.inj hrun
        refine (hargs w).bind fun vs p w₁ hvs => .of_error fun w' x p' hbody => ?_
        have hx : x.Justified (fun s => False ∨ w'.functions.InBody s) ρ w'.functions :=
          justified_of_enter hgrows henter hf hvs hbody
        exact .of_justified hx fun _ _ _ _ => id
    · refine Result.Echoes.bind (.of_error fun w' x p hrun => ?_) fun g p w₁ hrun => ?_
      · rw [hfind] at hrun
        obtain ⟨⟨rfl⟩, -, rfl⟩ := Result.mk.inj hrun
        exact .of_justified hx fun _ _ _ _ => Expr.noConfusion
      · rw [hfind] at hrun
        cases hrun

mutual

/-- Calls of `print` in a tree only add to what is printed, if the errors in the bodies of functions
are justified there. -/
theorem evalInWith_withPrints (hgrows : ∀ e ρ, (enter e ρ).Grows)
    (henter : ∀ e ρ, (enter e ρ).Explains (· ∈ e.subtrees) ρ) :
    ∀ (e : Expr) (marks : Marks) (ρ : Env) (w : World),
      ((evalInWith enter e ρ).run w).Echoes (e.SameError marks)
        ((evalInWith enter (e.withPrints marks) ρ).run w)
  | literal v line, marks, ρ, w => by
    simp only [withPrints]
    refine echoes_printedOn ?_ (marks [])
    simp only [evalInWith]
    exact .pure v.value w
  | unary op operand line, marks, ρ, w => by
    simp only [withPrints]
    refine echoes_printedOn ?_ (marks [])
    simp only [evalInWith]
    have hoperand := evalInWith_withPrints hgrows henter operand (marks.below [0]) ρ w
    refine (hoperand.mono fun F x x' => .of_child rfl).bind fun v _ w₁ _ => ?_
    have happly : (PureEval.ofExcept (v.applyUnary op line)).Explains
        (unary op operand line = ·) ρ :=
      explains_ofExcept rfl (mismatches_applyUnary op v)
    exact echoes_of_explains happly (fun _ _ _ _ => Expr.noConfusion) marks w₁
  | binary op left right line, marks, ρ, w => by
    simp only [withPrints]
    refine echoes_printedOn ?_ (marks [])
    simp only [evalInWith]
    have hleft := evalInWith_withPrints hgrows henter left (marks.below [0]) ρ w
    refine (hleft.mono fun F x x' => .of_child rfl).bind fun l _ w₁ _ => ?_
    have hright := evalInWith_withPrints hgrows henter right (marks.below [1]) ρ w₁
    refine (hright.mono fun F x x' => .of_child rfl).bind fun r _ w₂ _ => ?_
    have happly : (PureEval.ofExcept (l.applyBinary op r line)).Explains
        (binary op left right line = ·) ρ :=
      explains_ofExcept rfl (mismatches_applyBinary op l r)
    exact echoes_of_explains happly (fun _ _ _ _ => Expr.noConfusion) marks w₂
  | conditional condition onTrue onFalse line, marks, ρ, w => by
    simp only [withPrints]
    refine echoes_printedOn ?_ (marks [])
    simp only [evalInWith]
    have hcondition := evalInWith_withPrints hgrows henter condition (marks.below [0]) ρ w
    refine (hcondition.mono fun F x x' => .of_child rfl).bind fun v _ w₁ _ => ?_
    -- the error shows the condition, which is at position 0 of the tree itself
    have hself : (conditional condition onTrue onFalse line).at? [] =
        some (conditional condition onTrue onFalse line) := rfl
    have hfail : Result.Echoes ((conditional condition onTrue onFalse line).SameError marks)
        ((fail ⟨.conditionNotBool, condition.text, condition.line⟩ : PureEval Value).run w₁)
        ((fail ⟨.conditionNotBool, (condition.withPrints (marks.below [0])).text,
          (condition.withPrints (marks.below [0])).line⟩ : PureEval Value).run w₁) :=
      ⟨.error (.condition hself), List.Sublist.refl _, rfl⟩
    cases v with
    | bool b =>
      cases b with
      | true =>
        have htrue := evalInWith_withPrints hgrows henter onTrue (marks.below [1]) ρ w₁
        exact htrue.mono fun F x x' => .of_child rfl
      | false =>
        have hfalse := evalInWith_withPrints hgrows henter onFalse (marks.below [2]) ρ w₁
        exact hfalse.mono fun F x x' => .of_child rfl
    | number _ => exact hfail
    | text _ => exact hfail
    | nil => exact hfail
  | var name line, marks, ρ, w => by
    simp only [withPrints]
    refine echoes_printedOn ?_ (marks [])
    simp only [evalInWith]
    refine echoes_of_explains (explains_lookup rfl) ?_ marks w
    exact fun _ _ _ _ => Expr.noConfusion
  | letIn bindings body line, marks, ρ, w => by
    simp only [withPrints]
    refine echoes_printedOn ?_ (marks [])
    simp only [evalInWith]
    refine Result.Echoes.bind ?_ fun inner _ w₁ _ => ?_
    · exact extendWith_withPrints hgrows henter _ bindings marks 0 ρ w (List.prefix_append _ _)
    · have hlength : (bindings.map Binding.value).length = bindings.length := List.length_map _
      rw [← hlength]
      have hbody := evalInWith_withPrints hgrows henter body
      exact (hbody _ inner w₁).mono fun F x x' => .of_child List.getElem?_concat_length
  | function name params body line, marks, ρ, w => by
    simp only [withPrints]
    refine echoes_printedOn ?_ (marks [])
    simp only [evalInWith]
    have hdeclare : (declare ⟨name, params, body, line⟩).Explains
        (function name params body line = ·) ρ := explains_declare rfl
    refine echoes_of_explains (hdeclare.bind fun _ _ _ _ _ => explains_pure _) ?_ marks w
    exact fun _ _ _ _ => Expr.noConfusion
  | call name args line, marks, ρ, w => by
    simp only [withPrints]
    refine echoes_printedOn ?_ (marks [])
    refine echoes_call hgrows henter (length_listWithPrints marks 0 args) (fun w => ?_) w
    exact evalListInWith_withPrints hgrows henter _ args marks 0 ρ w List.prefix_rfl

theorem evalListInWith_withPrints (hgrows : ∀ e ρ, (enter e ρ).Grows)
    (henter : ∀ e ρ, (enter e ρ).Explains (· ∈ e.subtrees) ρ) :
    ∀ (parent : Expr) (es : List Expr) (marks : Marks) (i : Nat) (ρ : Env) (w : World),
      es <+: parent.children.drop i →
      ((evalListInWith enter es ρ).run w).Echoes (parent.SameError marks)
        ((evalListInWith enter (listWithPrints marks i es) ρ).run w)
  | _, [], marks, i, ρ, w, _ => by
    simp only [listWithPrints, evalListInWith]
    exact .pure [] w
  | parent, e :: es, marks, i, ρ, w, hchildren => by
    obtain ⟨he, hes⟩ := children_of_cons hchildren
    simp only [listWithPrints, evalListInWith]
    have hfirst := evalInWith_withPrints hgrows henter e (marks.below [i]) ρ w
    refine (hfirst.mono fun F x x' => .of_child he).bind fun v _ w₁ _ => ?_
    have hmore := evalListInWith_withPrints hgrows henter parent es marks (i + 1) ρ w₁ hes
    exact hmore.bind fun vs _ w₂ _ => .pure (v :: vs) w₂

theorem extendWith_withPrints (hgrows : ∀ e ρ, (enter e ρ).Grows)
    (henter : ∀ e ρ, (enter e ρ).Explains (· ∈ e.subtrees) ρ) :
    ∀ (parent : Expr) (bs : List (Binding Expr)) (marks : Marks) (i : Nat) (ρ : Env) (w : World),
      bs.map Binding.value <+: parent.children.drop i →
      ((extendWith enter bs ρ).run w).Echoes (parent.SameError marks)
        ((extendWith enter (bindingsWithPrints marks i bs) ρ).run w)
  | _, [], marks, i, ρ, w, _ => by
    simp only [bindingsWithPrints, extendWith]
    exact .pure ρ w
  | parent, ⟨name, value, line⟩ :: bs, marks, i, ρ, w, hchildren => by
    obtain ⟨hb, hbs⟩ := children_of_cons hchildren
    simp only [bindingsWithPrints, extendWith]
    have hvalue := evalInWith_withPrints hgrows henter value (marks.below [i]) ρ w
    refine (hvalue.mono fun F x x' => .of_child hb).bind fun v _ w₁ _ => ?_
    exact extendWith_withPrints hgrows henter parent bs marks (i + 1) (ρ.bind name v) w₁ hbs

end

end

/-- Calls of `print` in a tree only add to what is printed, however deep the calls are nested. -/
theorem evalIn_withPrints (depth : Nat) (e : Expr) (marks : Marks) (ρ : Env) (w : World) :
    ((evalIn depth e ρ).run w).Echoes (e.SameError marks)
      ((evalIn depth (e.withPrints marks) ρ).run w) := by
  cases depth with
  | zero =>
    have hdeep (s : Expr) (ρ : Env) : (tooDeep : PureEval Value).Explains (· ∈ s.subtrees) ρ :=
      explains_tooDeep
    exact evalInWith_withPrints (fun _ _ _ => .refl) hdeep e marks ρ w
  | succ n => exact evalInWith_withPrints (evalIn_grows n) (evalIn_explains n) e marks ρ w

/-- **Printing on the way**: with calls of `print` around any of its trees, a tree evaluates to the
same value or raises the same error, except that an error about a condition of the tree shows the
new condition. It leaves the same variables, functions and random numbers, and what the tree prints
is printed in the same order among the rest. The tree, and the bodies of functions, may declare
functions too, whose bodies are left as they are. -/
theorem evalUpTo_withPrints (depth : Nat) (e : Expr) (marks : Marks) (c : Context) :
    let r := (e.evalUpTo depth).run c
    let r' := ((e.withPrints marks).evalUpTo depth).run c
    r.1.Agrees (e.SameError marks r.2.functions) r'.1 ∧
    r'.2.vars = r.2.vars ∧ r'.2.functions = r.2.functions ∧ r'.2.random = r.2.random ∧
    ∃ printed printed' : List Value, printed.Sublist printed' ∧
      r.2.sink = c.sink.writeAll printed ∧ r'.2.sink = c.sink.writeAll printed' := by
  intro r r'
  have hr : r = _ := evalUpTo_refines_evalIn depth e c
  have hr' : r' = _ := evalUpTo_refines_evalIn depth (e.withPrints marks) c
  obtain ⟨houtcome, hprinted, hworld⟩ := evalIn_withPrints depth e marks c.visible c.world
  rw [hr, hr']
  exact ⟨houtcome, rfl, congrArg World.functions hworld, congrArg World.random hworld,
    _, _, hprinted, rfl, rfl⟩

end Expr

end LetLang
