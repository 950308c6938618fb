import LetLang.Proofs.Expr.Grammar
import LetLang.Proofs.Reader.Follows

/-!
# What a reader reads

All that is shown of the readers of the grammar is shown at once, by one record of what a reader
keeps (`Reads`) and one rule for each way of putting readers together. The words of a reader say
which tokens it may consume for which result. Whatever it accepts is one of its words. Wherever it
stops, it stops at the first token left, and what it has consumed begins one of its words, so it can
be completed. And it follows a second reader, which does the same on other lines and may have its
loops cut off elsewhere.

After some tokens have been consumed the words are those that begin with them, without them. So at
the end of a production all that is left to show is that its tokens are a word.
-/

namespace LetLang

/-! ### Errors at the first token left -/

/-- The fault is that a parameter is repeated. -/
def SyntaxFault.IsDuplicate (fault : SyntaxFault) : Prop :=
  ∃ name function, fault = .duplicateParameter name function

namespace SyntaxError

/-- The error is one of the first token left. If there is none, the lexeme is empty and line and
column are zero. A token is unexpected only if there is one, and not the end of the input; the input
has ended only where it has. -/
structure IsAt (e : SyntaxError) (rest : List Token) : Prop where
  found : e.found = (rest.head?.map Token.lexeme).getD ""
  position : e.position = (rest.head?.map Token.position).getD ⟨0, 0⟩
  unexpectedToken : ∀ expected, e.fault = .unexpectedToken expected →
    ∃ t ∈ rest.head?, t.kind ≠ .endOfInput
  unexpectedEnd : ∀ expected, e.fault = .unexpectedEnd expected →
    ∀ t ∈ rest.head?, t.kind = .endOfInput

/-- The error is one of the first token left, and not for a repeated parameter. -/
structure StopsAt (e : SyntaxError) (rest : List Token) : Prop extends e.IsAt rest where
  notDuplicate : ¬ e.fault.IsDuplicate

/-- Where something else was expected, the error is at the first token left. -/
theorem stopsAt_unexpected (expected : String) (rest : List Token) :
    (atFirst (.unexpected expected rest) rest).StopsAt rest := by
  cases rest with
  | nil => exact ⟨⟨rfl, rfl, nofun, nofun⟩, nofun⟩
  | cons t rest =>
    dsimp only [SyntaxFault.unexpected]
    by_cases hend : t.kind.isEnd = true
    · rw [if_pos hend]
      refine ⟨⟨rfl, rfl, nofun, fun _ _ u hu => ?_⟩, nofun⟩
      obtain rfl : t = u := Option.some.inj hu
      exact Token.Kind.isEnd_iff.mp hend
    · rw [if_neg hend]
      exact ⟨⟨rfl, rfl, fun _ _ => ⟨t, rfl, mt Token.Kind.isEnd_iff.mpr hend⟩, nofun⟩, nofun⟩

/-- Where a semicolon is missing, the error is at the first token left. -/
theorem stopsAt_missingSemicolon (rest : List Token) :
    (atFirst .missingSemicolon rest).StopsAt rest := by
  cases rest <;> exact ⟨⟨rfl, rfl, nofun, nofun⟩, nofun⟩

/-- Where tokens trail a statement, the error is at the first of them. -/
theorem stopsAt_trailingTokens (rest : List Token) :
    (atFirst .trailingTokens rest).StopsAt rest := by
  cases rest <;> exact ⟨⟨rfl, rfl, nofun, nofun⟩, nofun⟩

end SyntaxError

namespace Reader

open Grammar

/-! ### Words -/

/-- Which tokens go with which result. -/
abbrev Words (α : Type) : Type := α → List Token → Prop

/-- The words that begin with `w`, without it. -/
abbrev Words.after (S : Words α) (w : List Token) : Words α := fun a u => S a (w ++ u)

/-- There are words, and what the reader accepts is one. When it stops, it stops at the first token
left, and the tokens that it has consumed begin a word. -/
structure Gives (S : Words α) (r : Reader α) : Prop where
  nonempty : ∃ a w, S a w
  ok : ∀ {ts a rest}, r.run ts = (.ok a, rest) → ∃ w, w ++ rest = ts ∧ S a w
  error : ∀ {ts e rest}, r.run ts = (.error e, rest) →
    e.StopsAt rest ∧ ∃ w u a, w ++ rest = ts ∧ S a (w ++ u)

namespace Gives

variable {S : Words α} {T : Words β}

theorem pure {a : α} (h : S a []) : Gives S (pure a) := by
  refine ⟨⟨a, [], h⟩, fun hrun => ?_, fun hrun => by cases hrun⟩
  obtain ⟨⟨rfl⟩, rfl⟩ := Prod.mk.inj hrun
  exact ⟨[], rfl, h⟩

/-- A reader that stops at once can be completed in any way. -/
theorem of_stops {r : Reader α} {e : List Token → SyntaxError} (hS : ∃ a w, S a w)
    (hrun : ∀ ts, r.run ts = (.error (e ts), ts)) (hstops : ∀ ts, (e ts).StopsAt ts) :
    Gives S r := by
  refine ⟨hS, fun {ts _ _} h => ?_, fun {ts _ _} h => ?_⟩
  · rw [hrun ts] at h
    cases h
  · rw [hrun ts] at h
    obtain ⟨⟨rfl⟩, rfl⟩ := Prod.mk.inj h
    obtain ⟨a, w, hw⟩ := hS
    exact ⟨hstops ts, [], w, a, rfl, hw⟩

theorem fail (hS : ∃ a w, S a w) (expected : String) : Gives S (fail expected) :=
  of_stops hS (fun _ => rfl) (SyntaxError.stopsAt_unexpected expected)

/-- The words of a reader may be taken for any that they are part of. -/
theorem weaken {S' : Words α} {r : Reader α} (h : Gives S r) (hS : ∀ a w, S a w → S' a w) :
    Gives S' r := by
  refine ⟨?_, fun hrun => ?_, fun hrun => ?_⟩
  · obtain ⟨a, w, hw⟩ := h.nonempty
    exact ⟨a, w, hS a w hw⟩
  · obtain ⟨w, hsplit, hw⟩ := h.ok hrun
    exact ⟨w, hsplit, hS _ w hw⟩
  · obtain ⟨hstops, w, u, a, hsplit, hw⟩ := h.error hrun
    exact ⟨hstops, w, u, a, hsplit, hS a _ hw⟩

/-- The second reader completes what the first one has consumed. -/
theorem bind {r : Reader α} {k : α → Reader β} (h : Gives S r)
    (hk : ∀ a w, S a w → Gives (T.after w) (k a)) : Gives T (r >>= k) := by
  refine ⟨?_, fun {ts b rest} hrun => ?_, fun {ts e rest} hrun => ?_⟩
  · obtain ⟨a, w, hw⟩ := h.nonempty
    obtain ⟨b, u, hu⟩ := (hk a w hw).nonempty
    exact ⟨b, w ++ u, hu⟩
  · obtain ⟨a, mid, hfirst, hsecond⟩ := run_bind_eq_ok.mp hrun
    obtain ⟨w, rfl, hw⟩ := h.ok hfirst
    obtain ⟨u, rfl, hu⟩ := (hk a w hw).ok hsecond
    exact ⟨w ++ u, List.append_assoc _ _ _, hu⟩
  · rcases hfirst : r.run ts with ⟨e' | a, mid⟩
    · -- the word that the first reader has begun begins one of the sequence
      rw [run_bind_of_error k hfirst] at hrun
      obtain ⟨⟨rfl⟩, rfl⟩ := Prod.mk.inj hrun
      obtain ⟨hstops, w, u, a, hsplit, hw⟩ := h.error hfirst
      obtain ⟨b, v, hv⟩ := (hk a _ hw).nonempty
      exact ⟨hstops, w, u ++ v, b, hsplit, by rwa [← List.append_assoc]⟩
    · rw [run_bind_of_ok k hfirst] at hrun
      obtain ⟨w, rfl, hw⟩ := h.ok hfirst
      obtain ⟨hstops, v, u, b, rfl, hu⟩ := (hk a w hw).error hrun
      exact ⟨hstops, w ++ v, u, b, List.append_assoc _ _ _, by rwa [List.append_assoc]⟩

theorem take? {accept : Token.Kind → Option α} {k : Option (α × Token) → Reader β}
    (hsome : ∀ a t, accept t.kind = some a → Gives (T.after [t]) (k (some (a, t))))
    (hnone : Gives T (k none)) : Gives T (take? accept >>= k) := by
  refine ⟨hnone.nonempty, fun {ts b rest} hrun => ?_, fun {ts e rest} hrun => ?_⟩
  all_goals
    obtain ⟨a, t, mid, rfl, ha, htake⟩ | ⟨-, htake⟩ := run_take?_cases accept ts <;>
      rw [run_bind_of_ok k htake] at hrun
  · obtain ⟨w, rfl, hw⟩ := (hsome a t ha).ok hrun
    exact ⟨t :: w, rfl, hw⟩
  · exact hnone.ok hrun
  · obtain ⟨hstops, w, u, b, rfl, hw⟩ := (hsome a t ha).error hrun
    exact ⟨hstops, t :: w, u, b, rfl, hw⟩
  · exact hnone.error hrun

end Gives

/-! ### The record -/

/-- The reader `r` reads the words `S`, and follows `r'` up to the bound `n`. -/
structure Reads (f : Nat → Nat) (n : Nat) (φ : α → α) (S : Words α) (r r' : Reader α) : Prop
    extends Gives S r where
  follows : Follows f n φ r r'

namespace Reads

variable {f : Nat → Nat} {n : Nat} {φ : α → α} {ψ : β → β} {S : Words α} {T : Words β}

theorem mono {m : Nat} {r r' : Reader α} (h : Reads f n φ S r r') (hmn : m ≤ n) :
    Reads f m φ S r r' :=
  ⟨h.toGives, h.follows.mono hmn⟩

/-- The bound after a token is smaller. -/
theorem pred {r r' : Reader α} (h : Reads f n φ S r r') : Reads f (n - 1) φ S r r' :=
  h.mono (Nat.sub_le n 1)

theorem zero {r r' : Reader α} (h : Reads f n φ S r r') (s : Reader α) : Reads f 0 φ S r s :=
  ⟨h.toGives, h.follows.zero s⟩

theorem weaken {S' : Words α} {r r' : Reader α} (h : Reads f n φ S r r')
    (hS : ∀ a w, S a w → S' a w) : Reads f n φ S' r r' :=
  ⟨h.toGives.weaken hS, h.follows⟩

theorem pure {a b : α} (ha : S a []) (h : φ a = b) : Reads f n φ S (pure a) (pure b) :=
  ⟨.pure ha, .pure h⟩

theorem fail (hf : f 0 = 0) (hS : ∃ a w, S a w) (expected : String) :
    Reads f n φ S (fail expected) (fail expected) :=
  ⟨.fail hS expected, .fail hf expected⟩

theorem failWith (hf : f 0 = 0) (hS : ∃ a w, S a w) {fault : SyntaxFault}
    (hstops : ∀ ts, (SyntaxError.atFirst fault ts).StopsAt ts) :
    Reads f n φ S (failWith fault) (failWith fault) :=
  ⟨.of_stops hS (fun _ => rfl) hstops, .failWith hf fault⟩

/-- A sequence reads a word of the first reader and then what the second one adds to it. -/
theorem bind {r r' : Reader α} {k k' : α → Reader β} (h : Reads f n φ S r r')
    (hk : ∀ a w, S a w → Reads f n ψ (T.after w) (k a) (k' (φ a))) :
    Reads f n ψ T (r >>= k) (r' >>= k') := by
  refine ⟨h.toGives.bind fun a w hw => (hk a w hw).toGives, h.follows.bind ?_⟩
  intro ts a rest hrun
  obtain ⟨w, -, hw⟩ := h.ok hrun
  exact (hk a w hw).follows

/-- What is made of the result does not change the tokens. -/
theorem map {r r' : Reader α} {g g' : α → β} (h : Reads f n φ S r r')
    (hT : ∀ a w, S a w → T (g a) w) (hg : ∀ a, ψ (g a) = g' (φ a)) :
    Reads f n ψ T (r >>= fun a => Pure.pure (g a)) (r' >>= fun a => Pure.pure (g' a)) := by
  refine h.bind fun a w hw => .pure ?_ (hg a)
  rw [Words.after, List.append_nil]
  exact hT a w hw

/-- The first token may be looked at without consuming it. -/
theorem peek? {k k' : Option Token → Reader β}
    (hk : ∀ first, Reads f n ψ T (k first) (k' (first.map (Token.mapLine f)))) :
    Reads f n ψ T (peek? >>= k) (peek? >>= k') :=
  ⟨⟨(hk none).nonempty, fun {ts _ _} hrun => (hk ts.head?).ok hrun,
    fun {ts _ _} hrun => (hk ts.head?).error hrun⟩,
    .bind .peek? fun _ first _ _ => (hk first).follows⟩

/-- After a token is taken, the words are those that begin with it. -/
theorem take? {accept : Token.Kind → Option α} {k k' : Option (α × Token) → Reader β}
    (hsome : ∀ a t, accept t.kind = some a →
      Reads f (n - 1) ψ (T.after [t]) (k (some (a, t))) (k' (some (a, t.mapLine f))))
    (hnone : Reads f n ψ T (k none) (k' none)) :
    Reads f n ψ T (take? accept >>= k) (take? accept >>= k') :=
  ⟨.take? (fun a t ha => (hsome a t ha).toGives) hnone.toGives,
    .take? (fun a t ha => (hsome a t ha).follows) hnone.follows⟩

theorem hasSymbol {s : Symbol} {k k' : Bool → Reader β}
    (htrue : ∀ t : Terminal (.symbol s), Reads f (n - 1) ψ (T.after [t.token]) (k true) (k' true))
    (hfalse : Reads f n ψ T (k false) (k' false)) :
    Reads f n ψ T (hasSymbol s >>= k) (hasSymbol s >>= k') := by
  unfold Reader.hasSymbol
  simp only [bind_assoc, pure_bind]
  exact take? (fun _ t ht => htrue ⟨t, Token.Kind.symbol?_eq_some.mp ht⟩) hfalse

theorem keywordLine? {w : Keyword} {k k' : Option Nat → Reader β}
    (hsome : ∀ t : Terminal (.keyword w), Reads f (n - 1) ψ (T.after [t.token])
      (k (some t.token.line)) (k' (some (f t.token.line))))
    (hnone : Reads f n ψ T (k none) (k' none)) :
    Reads f n ψ T (keywordLine? w >>= k) (keywordLine? w >>= k') := by
  unfold Reader.keywordLine?
  simp only [bind_assoc, pure_bind]
  exact take? (fun _ t ht => hsome ⟨t, Token.Kind.keyword?_eq_some.mp ht⟩) hnone

/-! ### Tokens that must come -/

section

variable (hf : f 0 = 0) {expected : String}
include hf

/-- A token that must come begins a word, since there is a token of the kind. -/
theorem take {accept : Token.Kind → Option α} {k k' : α × Token → Reader β} {a : α}
    (kind : Token.Kind) (hkind : accept kind = some a)
    (hk : ∀ a t, accept t.kind = some a →
      Reads f (n - 1) ψ (T.after [t]) (k (a, t)) (k' (a, t.mapLine f))) :
    Reads f n ψ T (take accept expected >>= k) (take accept expected >>= k') := by
  have hT : ∃ b w, T b w := by
    obtain ⟨b, w, hw⟩ := (hk a ⟨kind, "", ⟨0, 0⟩⟩ hkind).nonempty
    exact ⟨b, _, hw⟩
  unfold Reader.take
  rw [bind_assoc, bind_assoc]
  exact take? hk (fail hf hT expected)

theorem symbol {s : Symbol} {k k' : Unit → Reader β}
    (hk : ∀ t : Terminal (.symbol s), Reads f (n - 1) ψ (T.after [t.token]) (k ()) (k' ())) :
    Reads f n ψ T (symbol s expected >>= k) (symbol s expected >>= k') := by
  unfold Reader.symbol
  rw [bind_assoc, bind_assoc]
  refine take hf (.symbol s) (Token.Kind.symbol?_eq_some.mpr rfl) fun _ t ht => ?_
  exact hk ⟨t, Token.Kind.symbol?_eq_some.mp ht⟩

theorem keyword {w : Keyword} {k k' : Nat → Reader β}
    (hk : ∀ t : Terminal (.keyword w),
      Reads f (n - 1) ψ (T.after [t.token]) (k t.token.line) (k' (f t.token.line))) :
    Reads f n ψ T (keyword w expected >>= k) (keyword w expected >>= k') := by
  unfold Reader.keyword
  rw [bind_assoc, bind_assoc]
  refine take hf (.keyword w) (Token.Kind.keyword?_eq_some.mpr rfl) fun _ t ht => ?_
  exact hk ⟨t, Token.Kind.keyword?_eq_some.mp ht⟩

theorem name {k k' : String × Token → Reader β}
    (hk : ∀ name : Name, Reads f (n - 1) ψ (T.after [name.token]) (k (name.name, name.token))
      (k' (name.name, name.token.mapLine f))) :
    Reads f n ψ T (Reader.take Token.Kind.identifier? expected >>= k)
      (Reader.take Token.Kind.identifier? expected >>= k') :=
  take hf (.identifier "") rfl fun name t ht =>
    hk ⟨t, name, Token.Kind.identifier?_eq_some.mp ht⟩

end

/-! ### Loops -/

section

variable {round round' : (ι → Reader α) → ι → Reader α} {S : ι → Words α} {g : ι → ι}

/-- One round of a loop reads words, given that the rounds after it do, for which a token less is
left. The value `i` that a loop carries along is `g i` on other lines. -/
def OfRound (f : Nat → Nat) (n : Nat) (φ : α → α) (S : ι → Words α) (g : ι → ι)
    (round round' : (ι → Reader α) → ι → Reader α) : Prop :=
  ∀ m ≤ n, ∀ more more', (∀ i, Reads f (m - 1) φ (S i) (more i) (more' (g i))) →
    ∀ i, Reads f m φ (S i) (round more i) (round' more' (g i))

variable (hf : f 0 = 0) (hS : ∀ i, ∃ a w, S i a w) (hround : OfRound f n φ S g round round')
include hf hS hround

/-- Loops that are cut off at different depths do the same up to the smaller one. -/
theorem loopUpTo {k k' m : Nat} (hm : m ≤ n) (hk : m ≤ k) (hk' : m ≤ k') (i : ι) :
    Reads f m φ (S i) (loopUpTo round k i) (loopUpTo round' k' (g i)) := by
  induction k generalizing k' m i with
  | zero =>
    obtain rfl := Nat.le_zero.mp hk
    exact (fail (n := 0) hf (hS i) "").zero _
  | succ k ih =>
    cases k' with
    | zero =>
      obtain rfl := Nat.le_zero.mp hk'
      exact (hround 0 hm _ _ (fun j => ih hm (Nat.zero_le k) hk' j) i).zero _
    | succ k' => exact hround m hm _ _ (fun j => ih (by omega) (by omega) (by omega) j) i

/-- A loop that is cut off does the same as one that is not, up to the depth of the cut. -/
theorem loopUpTo_loopFrom {k m : Nat} (hm : m ≤ n) (hk : m ≤ k) (i : ι) :
    Reads f m φ (S i) (Reader.loopUpTo round k i) (loopFrom round' (g i)) := by
  have hreads := loopUpTo hf hS hround (Nat.zero_le n) (Nat.zero_le k) (Nat.zero_le 0) i
  refine ⟨hreads.toGives, fun ts x rest hrun => ?_⟩
  obtain ⟨w, rfl, -⟩ := hreads.follows hrun
  refine ⟨w, rfl, fun hw rest' hrest' => ?_⟩
  -- the loop on the right has a round for each token of `w`, and one more
  have hlength : w.length + 1 ≤ (w.map (Token.mapLine f) ++ rest').length + 1 := by
    rw [List.length_append, List.length_map]
    omega
  have hw' : w.length + 1 ≤ k := Nat.le_trans hw hk
  exact (loopUpTo hf hS hround (Nat.le_trans hw hm) hw' hlength i).follows.run_map_append hrun
    hrest'

/-- A loop reads the words that each of its rounds reads. -/
theorem loopFrom (i : ι) :
    Reads f n φ (S i) (loopFrom round i) (Reader.loopFrom round' (g i)) := by
  have hmember (k : Nat) := loopUpTo_loopFrom hf hS hround (Nat.zero_le n) (Nat.zero_le k) i
  refine ⟨⟨hS i, fun hrun => (hmember _).ok hrun, fun hrun => (hmember _).error hrun⟩, ?_⟩
  intro ts x rest hrun
  obtain ⟨w, rfl, -⟩ := (hmember _).follows hrun
  refine ⟨w, rfl, fun hw rest' hrest' => ?_⟩
  have hlength : w.length + 1 ≤ (w ++ rest).length + 1 := by
    rw [List.length_append]
    omega
  exact (loopUpTo_loopFrom hf hS hround hw hlength i).follows.run_map_append hrun hrest'

end

theorem loop {round round' : Reader α → Reader α} (hf : f 0 = 0) (hS : ∃ a w, S a w)
    (hround : ∀ m ≤ n, ∀ more more', Reads f (m - 1) φ S more more' →
      Reads f m φ S (round more) (round' more')) :
    Reads f n φ S (loop round) (Reader.loop round') :=
  loopFrom (S := fun _ : Unit => S) (g := id) hf (fun _ => hS)
    (fun m hm _ _ hmore _ => hround m hm _ _ (hmore ())) ()

end Reads

/-- A loop is a fixed point of its rounds. -/
theorem loopFrom_eq {round : (ι → Reader α) → ι → Reader α} {φ : α → α} {S : ι → Words α}
    {g : ι → ι} (hφ : ∀ a, φ a = a) (hg : ∀ i, g i = i) (hS : ∀ i, ∃ a w, S i a w)
    (hround : ∀ n, Reads.OfRound id n φ S g round round) (i : ι) :
    loopFrom round i = round (loopFrom round) i := by
  obtain rfl : g = id := funext hg
  funext ts
  -- the rounds after the first one are as many as there are tokens
  have hmore (j : ι) := Reads.loopUpTo_loopFrom rfl hS (hround ts.length) (Nat.le_refl _)
    (Nat.le_refl _) j
  have hreads := hround (ts.length + 1) _ (Nat.le_refl _) _ _ hmore i
  exact (hreads.follows.run_eq hφ (Nat.lt_succ_self _)).symm

/-- A loop that carries nothing along is a fixed point of its rounds. -/
theorem loop_eq {round : Reader α → Reader α} {φ : α → α} {S : Words α} (hφ : ∀ a, φ a = a)
    (hS : ∃ a w, S a w)
    (hround : ∀ n more more', Reads id (n - 1) φ S more more' →
      Reads id n φ S (round more) (round more')) :
    loop round = round (loop round) :=
  loopFrom_eq (S := fun _ : Unit => S) (g := id) hφ (fun _ => rfl) (fun _ => hS)
    (fun _ m _ _ _ hmore _ => hround m _ _ (hmore ())) ()

/-! ### Lists -/

section

variable {f : Nat → Nat} {n : Nat} {φ : α → α} {S : Words α} {T : Words (List α)}

/-- One item is a list, and so is an item before a comma and a list. -/
structure Words.Lists (S : Words α) (T : Words (List α)) : Prop where
  nonempty : ∃ a w, S a w
  last : ∀ {a w}, S a w → T [a] w
  more : ∀ {a w as u} (comma : Terminal (.symbol .comma)), S a w → T as u →
    T (a :: as) (w ++ comma.token :: u)

theorem Words.Lists.exists_word (h : S.Lists T) : ∃ as w, T as w := by
  obtain ⟨a, w, hw⟩ := h.nonempty
  exact ⟨[a], w, h.last hw⟩

/-- A list is read from one item and, after a comma, the items after it. -/
theorem reads_itemsWith (hlists : S.Lists T) {item item' : Reader α} {more more' : Reader (List α)}
    (hitem : Reads f n φ S item item') (hmore : Reads f (n - 1) (List.map φ) T more more') :
    Reads f n (List.map φ) T (itemsWith item more) (itemsWith item' more') := by
  refine hitem.bind fun a w hw => .hasSymbol (fun comma => ?_) (.pure ?_ rfl)
  · exact hmore.map (fun as u hu => hlists.more comma hw hu) fun _ => rfl
  · rw [Words.after, List.append_nil]
    exact hlists.last hw

/-- A list is read from any number of items. -/
theorem reads_items (hf : f 0 = 0) (hlists : S.Lists T) {item item' : Reader α}
    (hitem : Reads f n φ S item item') :
    Reads f n (List.map φ) T (items item) (items item') :=
  .loop hf hlists.exists_word fun _ hm _ _ hmore => reads_itemsWith hlists (hitem.mono hm) hmore

/-- A list that a parenthesis closes is empty, or a word of `list`. -/
theorem reads_toParen (hf : f 0 = 0) {list list' : Reader (List α)} {T' : Words (List α)}
    (hlist : Reads f n (List.map φ) T list list')
    (hempty : ∀ right : Terminal (.symbol .rightParen), T' [] [right.token])
    (hclosed : ∀ {as w} (right : Terminal (.symbol .rightParen)), T as w →
      T' as (w ++ [right.token])) (expected : String) :
    Reads f n (List.map φ) T' (toParen list expected) (toParen list' expected) := by
  refine .hasSymbol (fun right => .pure (hempty right) rfl) (hlist.bind fun as w hw => ?_)
  exact .symbol hf fun right => .pure (hclosed right hw) rfl

/-- One or more items are a first item, and after a comma more items. -/
theorem items_eq {item : Reader α} (hφ : ∀ a, φ a = a) (hlists : S.Lists T)
    (hitem : ∀ n, Reads id n φ S item item) : items item = itemsWith item (items item) := by
  refine loop_eq (φ := List.map φ) (fun as => ?_) hlists.exists_word fun n _ _ hmore =>
    reads_itemsWith hlists (hitem n) hmore
  rw [funext hφ, List.map_id']

end

end Reader

end LetLang
