import LetLang.Proofs.Expr.MapLines
import LetLang.Proofs.Reader

/-!
# What a reader depends on

A reader looks at the tokens that it consumes and at the first one that it leaves, and at nothing
beyond. Of a line number it makes no use but to copy it into its result. `Follows` says both at
once, of a reader `r` and a reader `r'` that does the same on other lines: where `r` consumes some
tokens in front of others, `r'` consumes the same tokens, moved to other lines, in front of any
others that start in the same way, and its result is that of `r`, moved likewise.

The relation is bounded by the number of consumed tokens. At the bound zero it says nothing of `r'`,
and a token that is consumed gains one, so readers whose loops are cut off at different depths
follow one another up to a bound. On its own lines, a reader that follows another one agrees with it
(`Follows.run_eq`).
-/

namespace LetLang.Reader

/-! ### The same tokens on other lines -/

/-- The result of a reader on other lines. -/
def mapResult (f : Nat → Nat) (φ : α → α) : Except SyntaxError α → Except SyntaxError α
  | .ok a => .ok (φ a)
  | .error e => .error (e.mapLine f)

/-- A result on its own lines is itself. -/
theorem mapResult_id {φ : α → α} (hφ : ∀ a, φ a = a) (x : Except SyntaxError α) :
    mapResult id φ x = x := by
  cases x with
  | ok a => exact congrArg Except.ok (hφ a)
  | error e => rfl

/-- The two lists start with the same token, or are both empty, up to line numbers. -/
def SameFirst (f : Nat → Nat) (ts ts' : List Token) : Prop :=
  ts'.head? = ts.head?.map (Token.mapLine f)

namespace SameFirst

variable {f : Nat → Nat} {ts ts' : List Token}

/-- What is put in front of two lists that start in the same way starts in the same way. -/
theorem append (h : SameFirst f ts ts') (before : List Token) :
    SameFirst f (before ++ ts) (before.map (Token.mapLine f) ++ ts') := by
  cases before with
  | nil => exact h
  | cons t before => rfl

/-- A kind is first in both lists or in none. -/
theorem noneFirst (h : SameFirst f ts ts') {accept : Token.Kind → Option α}
    (hnone : NoneFirst accept ts) : NoneFirst accept ts' := by
  intro t' ht'
  rw [h] at ht'
  obtain ⟨t, ht, rfl⟩ := Option.map_eq_some_iff.mp ht'
  exact hnone t ht

/-- Errors at the first token are the same up to the line. Past the last token the line is zero. -/
theorem atFirst (hf : f 0 = 0) (h : SameFirst f ts ts') (fault : SyntaxFault) :
    SyntaxError.atFirst fault ts' = (SyntaxError.atFirst fault ts).mapLine f := by
  cases ts with
  | nil =>
    obtain rfl : ts' = [] := List.head?_eq_none_iff.mp h
    simp [SyntaxError.atFirst, SyntaxError.mapLine, Position.mapLine, hf]
  | cons t ts =>
    obtain ⟨us, rfl⟩ := List.head?_eq_some_iff.mp h
    rfl

/-- What is wrong at the first token does not depend on its line. -/
theorem unexpected (h : SameFirst f ts ts') (expected : String) :
    SyntaxFault.unexpected expected ts' = SyntaxFault.unexpected expected ts := by
  cases ts with
  | nil =>
    obtain rfl : ts' = [] := List.head?_eq_none_iff.mp h
    rfl
  | cons t ts =>
    obtain ⟨us, rfl⟩ := List.head?_eq_some_iff.mp h
    rfl

end SameFirst

/-! ### Readers on other lines -/

/-- The reader `r` consumes some tokens `w`. If there are fewer than `n`, then `r` depends only on
them and the first token that it leaves, and `r'` does the same on the lines that `f` gives. Results
are moved to other lines by `φ`. -/
def Follows (f : Nat → Nat) (n : Nat) (φ : α → α) (r r' : Reader α) : Prop :=
  ∀ ⦃ts x rest⦄, r.run ts = (x, rest) → ∃ w, w ++ rest = ts ∧
    (w.length < n → ∀ rest', SameFirst f rest rest' →
      r'.run (w.map (Token.mapLine f) ++ rest') = (mapResult f φ x, rest'))

namespace Follows

variable {f : Nat → Nat} {n : Nat} {φ : α → α} {ψ : β → β}

/-- What holds up to a bound holds up to a smaller one. -/
theorem mono {m : Nat} {r r' : Reader α} (h : Follows f n φ r r') (hmn : m ≤ n) :
    Follows f m φ r r' := by
  intro ts x rest hrun
  obtain ⟨w, hsplit, hfollows⟩ := h hrun
  exact ⟨w, hsplit, fun hw => hfollows (Nat.lt_of_lt_of_le hw hmn)⟩

/-- The bound zero leaves the second reader open. -/
theorem zero {r r' : Reader α} (h : Follows f n φ r r') (s : Reader α) : Follows f 0 φ r s := by
  intro ts x rest hrun
  obtain ⟨w, hsplit, -⟩ := h hrun
  exact ⟨w, hsplit, fun hw => absurd hw (Nat.not_lt_zero _)⟩

/-- A reader that leaves all tokens where they are looks at most at the first one. -/
theorem of_run_eq {r r' : Reader α} {x : List Token → Except SyntaxError α}
    (hrun : ∀ ts, r.run ts = (x ts, ts))
    (hrun' : ∀ ts ts', SameFirst f ts ts' → r'.run ts' = (mapResult f φ (x ts), ts')) :
    Follows f n φ r r' := by
  intro ts y rest h
  obtain ⟨rfl, rfl⟩ := Prod.mk.inj ((hrun ts).symm.trans h)
  exact ⟨[], rfl, fun _ => hrun' ts⟩

theorem pure {a b : α} (h : φ a = b) : Follows f n φ (pure a) (pure b) :=
  of_run_eq (x := fun _ => .ok a) (fun _ => rfl) fun _ _ _ => by rw [← h]; rfl

theorem peek? : Follows f n (Option.map (Token.mapLine f)) peek? peek? :=
  of_run_eq (x := fun ts => .ok ts.head?) (fun _ => rfl) fun _ ts' h =>
    congrArg (fun first => (Except.ok first, ts')) h

/-- An error that is about no token of the input is on its own line. -/
theorem throw {e e' : SyntaxError} (h : e.mapLine f = e') :
    Follows f n φ (throw e) (throw e') :=
  of_run_eq (x := fun _ => .error e) (fun _ => rfl) fun _ _ _ => by rw [← h]; rfl

theorem failWith (hf : f 0 = 0) (fault : SyntaxFault) :
    Follows f n φ (failWith fault) (failWith fault) :=
  of_run_eq (fun _ => rfl) fun _ ts' h =>
    congrArg (fun e => (Except.error e, ts')) (h.atFirst hf fault)

theorem fail (hf : f 0 = 0) (expected : String) :
    Follows f n φ (fail expected) (fail expected) := by
  refine of_run_eq (fun _ => rfl) fun ts ts' h => ?_
  show (Except.error (SyntaxError.atFirst (.unexpected expected ts') ts'), ts') = _
  rw [h.unexpected, h.atFirst hf]
  rfl

/-- A sequence follows a sequence. Of the second reader only what comes after a result of the first
one matters. -/
theorem bind {r r' : Reader α} {k k' : α → Reader β} (h : Follows f n φ r r')
    (hk : ∀ ts a rest, r.run ts = (.ok a, rest) → Follows f n ψ (k a) (k' (φ a))) :
    Follows f n ψ (r >>= k) (r' >>= k') := by
  intro ts x rest hrun
  rcases hfirst : r.run ts with ⟨e | a, mid⟩
  · rw [run_bind_of_error k hfirst] at hrun
    obtain ⟨rfl, rfl⟩ := Prod.mk.inj hrun
    obtain ⟨w, hsplit, hfollows⟩ := h hfirst
    exact ⟨w, hsplit, fun hw rest' hrest' => run_bind_of_error k' (hfollows hw rest' hrest')⟩
  · rw [run_bind_of_ok k hfirst] at hrun
    obtain ⟨w, rfl, hfollows⟩ := h hfirst
    obtain ⟨u, rfl, hfollows'⟩ := hk _ a _ hfirst hrun
    refine ⟨w ++ u, List.append_assoc _ _ _, fun hlength rest' hrest' => ?_⟩
    rw [List.length_append] at hlength
    rw [List.map_append, List.append_assoc,
      run_bind_of_ok k' (hfollows (by omega) _ (hrest'.append u))]
    exact hfollows' (by omega) rest' hrest'

/-- After a token is taken, the bound is smaller by one. -/
theorem take? {accept : Token.Kind → Option α} {k k' : Option (α × Token) → Reader β}
    (hsome : ∀ a t, accept t.kind = some a →
      Follows f (n - 1) ψ (k (some (a, t))) (k' (some (a, t.mapLine f))))
    (hnone : Follows f n ψ (k none) (k' none)) :
    Follows f n ψ (take? accept >>= k) (take? accept >>= k') := by
  intro ts x rest hrun
  obtain ⟨a, t, mid, rfl, ha, htake⟩ | ⟨hfirst, htake⟩ := run_take?_cases accept ts
  · rw [run_bind_of_ok k htake] at hrun
    obtain ⟨w, rfl, hfollows⟩ := hsome a t ha hrun
    refine ⟨t :: w, rfl, fun hw rest' hrest' => ?_⟩
    have htake' := run_take?_cons (t := t.mapLine f) ha (w.map (Token.mapLine f) ++ rest')
    rw [List.map_cons, List.cons_append, run_bind_of_ok k' htake']
    exact hfollows (Nat.lt_sub_of_add_lt hw) rest' hrest'
  · rw [run_bind_of_ok k htake] at hrun
    obtain ⟨w, rfl, hfollows⟩ := hnone hrun
    refine ⟨w, rfl, fun hw rest' hrest' => ?_⟩
    have hfirst' := (hrest'.append w).noneFirst hfirst
    rw [run_bind_of_ok k' (run_take?_of_noneFirst hfirst')]
    exact hfollows hw rest' hrest'

/-- A reader that follows up to the tokens `w`, and consumes them, does the same on other lines. -/
theorem run_map_append {r r' : Reader α} {w rest rest' : List Token} {x : Except SyntaxError α}
    (h : Follows f (w.length + 1) φ r r') (hrun : r.run (w ++ rest) = (x, rest))
    (hfirst : SameFirst f rest rest') :
    r'.run (w.map (Token.mapLine f) ++ rest') = (mapResult f φ x, rest') := by
  obtain ⟨w', hsplit, hfollows⟩ := h hrun
  obtain rfl : w' = w := List.append_cancel_right hsplit
  exact hfollows (Nat.lt_succ_self _) rest' hfirst

/-- On the same lines, a reader and one that it follows do the same with the tokens that the first
one consumes, whatever comes after the next one. -/
theorem run_append {r r' : Reader α} (hφ : ∀ a, φ a = a) {w rest rest' : List Token}
    {x : Except SyntaxError α} (h : Follows id (w.length + 1) φ r r')
    (hrun : r.run (w ++ rest) = (x, rest)) (hfirst : rest'.head? = rest.head?) :
    r'.run (w ++ rest') = (x, rest') := by
  have hid : Token.mapLine id = id := rfl
  have hsame : SameFirst id rest rest' := by rw [SameFirst, hid, Option.map_id]; exact hfirst
  have hrun' := h.run_map_append hrun hsame
  rwa [mapResult_id hφ, hid, List.map_id] at hrun'

/-- With few enough tokens, a reader does what one does that follows it on the same lines. -/
theorem run_eq {r r' : Reader α} (hφ : ∀ a, φ a = a) (h : Follows id n φ r r') {ts : List Token}
    (hts : ts.length < n) : r'.run ts = r.run ts := by
  obtain ⟨w, hsplit, -⟩ := h (Prod.eta (r.run ts)).symm
  have hw : w.length + 1 ≤ n := by
    have hlength := congrArg List.length hsplit
    rw [List.length_append] at hlength
    omega
  have hrun : r.run (w ++ (r.run ts).2) = r.run ts := congrArg r.run hsplit
  have hrun' := (h.mono hw).run_append hφ hrun rfl
  rwa [hsplit] at hrun'

/-- What stands after an end of the input is not looked at by a reader that consumes no such end. -/
theorem run_before_end {r : Reader α} (hφ : ∀ a, φ a = a) (h : ∀ n, Follows id n φ r r)
    {before after w : List Token} {stop : Token} (hstop : stop.kind = .endOfInput)
    (hsplit : w ++ (r.run (before ++ stop :: after)).2 = before ++ stop :: after)
    (hw : ∀ t ∈ w, t.kind ≠ .endOfInput) :
    ∃ left, ∀ after', r.run (before ++ stop :: after') =
      ((r.run (before ++ stop :: after)).1, left ++ stop :: after') := by
  -- the end is not consumed, so what is left starts in front of it
  obtain ⟨left, hbefore, hrest⟩ : ∃ left, before = w ++ left ∧
      (r.run (before ++ stop :: after)).2 = left ++ stop :: after := by
    obtain ⟨left, hbefore, hrest⟩ | ⟨extra, hw', hextra⟩ := List.append_eq_append_iff.mp hsplit
    · exact ⟨left, hbefore, hrest⟩
    · cases extra with
      | nil => exact ⟨[], by rw [hw', List.append_nil, List.append_nil], hextra.symm⟩
      | cons t extra =>
        obtain ⟨rfl, -⟩ := List.cons.inj hextra
        rw [hw'] at hw
        exact absurd hstop (hw stop (List.mem_append_right before List.mem_cons_self))
  refine ⟨left, fun after' => ?_⟩
  have hfirst : (left ++ stop :: after').head? = (left ++ stop :: after).head? := by
    cases left <;> rfl
  rw [← hrest] at hfirst
  have hrun : r.run (w ++ (r.run (before ++ stop :: after)).2) =
      r.run (before ++ stop :: after) := congrArg r.run hsplit
  have hrun' := (h _).run_append hφ hrun hfirst
  rwa [← List.append_assoc, ← hbefore] at hrun'

end Follows

end LetLang.Reader
