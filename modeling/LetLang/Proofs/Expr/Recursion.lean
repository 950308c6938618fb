import LetLang.Proofs.Expr.FirstError

/-!
# The recursion of the readers ends

The readers of statements and expressions call one another, and some of them have loops. `step` says
what one of them does, given a reader for each call and each further round of a loop, and bounds
nothing. The readers are a solution of these equations (`step_reader`).

A call or a round comes after a token has been consumed, or else it goes to a part of smaller rank
(`follows_step`). So for each token there are at most as many calls inside one another as there are
ranks, and the recursion may be cut off further down in any way (`run_unfolded`). The last section
puts this together with what the readers consume and what they depend on.
-/

namespace LetLang.Expr

open Reader Grammar

/-! ### Parts of the grammar -/

/-- The parts of the grammar that are read as a tree. An expression is a `let` or a conditional, and
a conditional is an `if` or an operand of the last level. Operands of level zero have unary
operators before them; those of level `k + 1` have operators of rank `k` between operands of level
`k`. -/
inductive Part where
  | statement
  | expression
  | conditional
  | level (k : Fin (BinaryOp.rankCount + 1))

/-- The reader of a part. -/
def Part.reader : Part → Reader Expr
  | statement => Expr.statement
  | expression => Expr.expression
  | conditional => conditionalLevel
  | level k => binaryLevel k

/-- What is called while a part is read, with the type of what it gives: another part, a
declaration, or what is left of a loop. -/
inductive Task : Type → Type where
  | part (p : Part) : Task Expr
  | declaration : Task Expr
  | parameters : Task (List (String × Token))
  | bindings : Task (List (Binding Expr))
  | arguments : Task (List Expr)
  /-- The operators of rank `k` after the operand `left`. -/
  | tail (k : Fin BinaryOp.rankCount) (left : Expr) : Task Expr

namespace Task

/-- The reader of a task. -/
def reader : Task α → Reader α
  | part p => p.reader
  | declaration => Expr.declaration
  | parameters => items parameter
  | bindings => items (readBinding expression)
  | arguments => items expression
  | tail k left => readTail (binaryLevel k) k left

/-! ### One step -/

/-- What the reader of a task does, given a reader `call` for each task that it calls. -/
def step (call : (β : Type) → Task β → Reader β) : Task α → Reader α
  | part .statement => readStatement (call _ declaration) (call _ (part .expression))
  | declaration => readDeclaration (call _ parameters) (call _ (part .expression))
  | parameters => itemsWith parameter (call _ parameters)
  | part .expression =>
    readExpression (call _ bindings) (call _ (part .expression)) (call _ (part .conditional))
  | bindings => itemsWith (readBinding (call _ (part .expression))) (call _ bindings)
  | part .conditional =>
    readConditional (call _ (part .expression)) (call _ (part (.level (Fin.last _))))
  | part (.level ⟨0, h⟩) =>
    readSigned (readPrimary (call _ (part .expression)) (call _ arguments))
      (call _ (part (.level ⟨0, h⟩)))
  | part (.level ⟨k + 1, h⟩) =>
    readChain (call _ (part (.level ⟨k, Nat.lt_of_succ_lt h⟩)))
      fun left => call _ (tail ⟨k, Nat.lt_of_succ_lt_succ h⟩ left)
  | tail k left =>
    readJoined (call _ (part (.level k.castSucc))) k (fun left => call _ (tail k left)) left
  | arguments => itemsWith (call _ (part .expression)) (call _ arguments)

/-- The readers do what a step says. -/
theorem step_reader (task : Task α) : step (fun _ => reader) task = task.reader := by
  cases task with
  | part p =>
    cases p with
    | statement => rfl
    | expression => exact expression_eq.symm
    | conditional => rfl
    | level k =>
      obtain ⟨k, hk⟩ := k
      cases k with
      | zero => exact binaryLevel_zero_eq.symm
      | succ k => rfl
  | declaration => rfl
  | parameters => exact parameters_eq.symm
  | bindings => exact bindings_eq.symm
  | arguments => exact arguments_eq.symm
  | tail k left => exact (readTail_eq k left).symm

/-! ### Calls on fewer tokens or of smaller rank -/

/-- The rank of a task. On the tokens that it is given itself, a task calls only tasks of smaller
rank. -/
def rank : Task α → Nat
  | parameters | bindings | tail _ _ => 0
  | part (.level k) => k
  | part .conditional => BinaryOp.rankCount + 1
  | part .expression => BinaryOp.rankCount + 2
  | arguments | declaration => BinaryOp.rankCount + 3
  | part .statement => BinaryOp.rankCount + 4

/-- The number of ranks. -/
def rankCount : Nat := BinaryOp.rankCount + 5

theorem rank_lt_rankCount (task : Task α) : task.rank < rankCount := by
  cases task with
  | part p =>
    cases p with
    | level k => exact Nat.lt_of_lt_of_le k.isLt (by decide)
    | _ => decide
  | tail k left => exact Nat.succ_pos _
  | _ => decide

/-- The result of a task on other lines. -/
def mapLines (f : Nat → Nat) : Task α → α → α
  | part _ | declaration | tail _ _ => Expr.mapLines f
  | parameters => List.map (mapLineParameter f)
  | bindings => List.map (mapLinesBinding f)
  | arguments => List.map (Expr.mapLines f)

/-- On its own lines, the result of a task is itself. -/
theorem mapLines_id (task : Task α) (a : α) : task.mapLines id a = a := by
  cases task with
  | part | declaration | tail => exact Expr.mapLines_id a
  | parameters => exact List.map_id a
  | bindings => exact List.map_id'' mapLinesBinding_id a
  | arguments => exact List.map_id'' Expr.mapLines_id a

theorem follows_reader (task : Task α) (n : Nat) :
    Follows id n (task.mapLines id) task.reader task.reader := by
  cases task with
  | part p =>
    cases p with
    | statement => exact follows_statement rfl
    | expression => exact (reads_expression rfl).follows
    | conditional => exact (reads_conditionalLevel rfl).follows
    | level k => exact (reads_binaryLevel rfl k).follows
  | declaration => exact follows_declaration rfl
  | parameters => exact (reads_parameters rfl).follows
  | bindings => exact (reads_bindings rfl).follows
  | arguments => exact (reads_arguments rfl).follows
  | tail k left =>
    have htail := reads_readTail (f := id) (n := n) rfl (reads_binaryLevel rfl k) left
    rw [Expr.mapLines_id] at htail
    exact htail.follows

section

variable {n : Nat} {call : (β : Type) → Task β → Reader β}

/-- What is left of a loop over operators goes with the operand before it. -/
theorem reads_tail {k : Fin BinaryOp.rankCount} {left : Expr}
    (h : Follows id n (mapLines id (tail k left)) (tail k left).reader (call _ (tail k left))) :
    Reads id n (Expr.mapLines id) (Joins k left) (readTail (binaryLevel k) k left)
      (call _ (tail k (left.mapLines id))) := by
  rw [Expr.mapLines_id]
  exact ⟨(reads_readTail (f := id) (n := n) rfl (reads_binaryLevel rfl k) left).toGives, h⟩

/-- What a task does while it consumes fewer than `n` tokens depends only on calls that consume
fewer, and on those of smaller rank. -/
theorem follows_step (task : Task α)
    (hfewer : ∀ (β : Type) (q : Task β), Follows id (n - 1) (q.mapLines id) q.reader (call β q))
    (hsame : ∀ (β : Type) (q : Task β), q.rank < task.rank →
      Follows id n (q.mapLines id) q.reader (call β q)) :
    Follows id n (task.mapLines id) task.reader (step call task) := by
  -- what is called after a token
  have hnested : Reads id (n - 1) _ (Means .expression) expression (call _ (part .expression)) :=
    ⟨gives_expression, hfewer _ (part .expression)⟩
  have hbindings : Reads id (n - 1) _ (Means .bindings) _ (call _ bindings) :=
    ⟨(reads_bindings (f := id) (n := n) rfl).toGives, hfewer _ bindings⟩
  have hargs : Reads id (n - 1) _ (Means .arguments) _ (call _ arguments) :=
    ⟨(reads_arguments (f := id) (n := n) rfl).toGives, hfewer _ arguments⟩
  have hparams : Reads id (n - 1) _ Parameters.Means _ (call _ parameters) :=
    ⟨(reads_parameters (f := id) (n := n) rfl).toGives, hfewer _ parameters⟩
  rw [← step_reader task]
  cases task with
  | part p =>
    cases p with
    | statement =>
      exact follows_readStatement rfl (hsame _ declaration (by decide))
        (hsame _ (part .expression) (by decide))
    | expression =>
      exact (reads_readExpression rfl hbindings hnested
        ⟨gives_conditionalLevel, hsame _ (part .conditional) (by decide)⟩).follows
    | conditional =>
      exact (reads_readConditional rfl hnested
        ⟨gives_binaryLevel _, hsame _ (part (.level (Fin.last _))) (by decide)⟩).follows
    | level k =>
      obtain ⟨k, hk⟩ := k
      cases k with
      | zero =>
        exact (reads_readSigned (reads_readPrimary rfl hnested hargs)
          ⟨gives_binaryLevel 0, hfewer _ (part (.level ⟨0, hk⟩))⟩).follows
      | succ k =>
        have hoperand := hsame _ (part (.level ⟨k, Nat.lt_of_succ_lt hk⟩)) (Nat.lt_succ_self k)
        have htail (left : Expr) :=
          reads_tail (hsame _ (tail ⟨k, Nat.lt_of_succ_lt_succ hk⟩ left) (Nat.succ_pos k))
        exact (reads_readChain ⟨gives_binaryLevel k, hoperand⟩ htail).follows
  | declaration =>
    exact follows_readDeclaration rfl hparams
      ⟨gives_expression, hsame _ (part .expression) (by decide)⟩
  | parameters => exact (reads_itemsWith lists_parameters (reads_parameter rfl) hparams).follows
  | bindings =>
    exact (reads_itemsWith lists_bindings (reads_readBinding rfl hnested) hbindings).follows
  | arguments =>
    exact (reads_itemsWith lists_arguments
      ⟨gives_expression, hsame _ (part .expression) (by decide)⟩ hargs).follows
  | tail k left =>
    have hoperand := hfewer _ (part (.level k.castSucc))
    have hmore (left : Expr) := reads_tail (hfewer _ (tail k left))
    have hjoined : Reads id n (Expr.mapLines id) (Joins k left) _
        (readJoined _ k (fun left => call _ (tail k left)) (left.mapLines id)) :=
      reads_readJoined ⟨gives_binaryLevel k, hoperand⟩ hmore left
    rw [Expr.mapLines_id] at hjoined
    exact hjoined.follows

end

/-! ### Recursion that is cut off -/

/-- The readers whose calls are at most `n` deep, with `cut` in place of the calls further down. -/
def unfolded (cut : (β : Type) → Task β → Reader β) : Nat → (β : Type) → Task β → Reader β
  | 0 => cut
  | n + 1 => fun _ => step (unfolded cut n)

/-- Calls as deep as there are ranks, for each token that is consumed and once more, are deep
enough. -/
theorem follows_unfolded (cut : (β : Type) → Task β → Reader β) (depth : Nat) :
    ∀ (n : Nat) (β : Type) (task : Task β), rankCount * n + task.rank < depth + rankCount →
      Follows id n (task.mapLines id) task.reader (unfolded cut depth β task) := by
  -- a call is one level deeper, and consumes fewer tokens or has smaller rank
  induction depth with
  | zero =>
    intro n β task h
    cases n with
    | zero => exact (task.follows_reader 0).zero _
    | succ n =>
      rw [Nat.mul_succ] at h
      omega
  | succ depth ih =>
    intro n β task h
    refine follows_step task (fun β q => ih (n - 1) β q ?_) fun β q hq => ih n β q (by omega)
    have hrank := q.rank_lt_rankCount
    cases n with
    | zero =>
      rw [Nat.zero_sub, Nat.mul_zero]
      omega
    | succ n =>
      rw [Nat.mul_succ] at h
      rw [Nat.add_sub_cancel]
      omega

/-- Calls as deep as there are ranks, for each token and once more, give what the reader gives. -/
theorem run_unfolded (cut : (β : Type) → Task β → Reader β) {depth : Nat} (task : Task α)
    {ts : List Token} (h : rankCount * (ts.length + 1) ≤ depth) :
    (unfolded cut depth α task).run ts = task.reader.run ts := by
  have hrank := task.rank_lt_rankCount
  have hfollows := follows_unfolded cut depth (ts.length + 1) α task (by omega)
  exact hfollows.run_eq task.mapLines_id (Nat.lt_succ_self _)

end Task

/-! ### Parts as consumers -/

/-- The reader consumes no end of the input, and it does not succeed without a token. An error,
unless it is for a repeated parameter, is one of the first token left. -/
structure Consumes (r : Reader Expr) : Prop where
  ok : ∀ {ts e rest}, r.run ts = (.ok e, rest) →
    ∃ w, w ++ rest = ts ∧ (∀ t ∈ w, t.kind ≠ .endOfInput) ∧ w ≠ []
  error : ∀ {ts e rest}, r.run ts = (.error e, rest) →
    (∃ w, w ++ rest = ts ∧ ∀ t ∈ w, t.kind ≠ .endOfInput) ∧ (¬ e.fault.IsDuplicate → e.IsAt rest)

/-- What is derived has a first token and no end of the input, and so has what begins it. -/
theorem consumes_of_gives {r : Reader Expr} {S : Words Expr} (h : Gives S r)
    (hS : ∀ {e w}, S e w → w ≠ [] ∧ ∀ t ∈ w, t.kind ≠ .endOfInput) : Consumes r where
  ok hrun := by
    obtain ⟨w, hsplit, hw⟩ := h.ok hrun
    exact ⟨w, hsplit, (hS hw).2, (hS hw).1⟩
  error hrun := by
    obtain ⟨hstops, w, u, a, hsplit, hw⟩ := h.error hrun
    exact ⟨⟨w, hsplit, fun t ht => (hS hw).2 t (List.mem_append_left u ht)⟩,
      fun _ => hstops.toIsAt⟩

theorem consumes_derived {n : Nonterminal} {h : Nat} (hn : n.height = some h)
    {e : Meaning n} {w : List Token} (hw : Means n e w) :
    w ≠ [] ∧ ∀ t ∈ w, t.kind ≠ .endOfInput := by
  obtain ⟨d, -, rfl⟩ := hw
  obtain ⟨t, rest, -, hyield, -⟩ := d.begins hn
  exact ⟨hyield ▸ List.cons_ne_nil t rest, d.kind_ne⟩

theorem consumes_statement : Consumes statement where
  ok hrun := by
    obtain ⟨w, semicolon, rfl, -, s, rfl, -⟩ := exists_derives_of_run_statement hrun
    have hviable : Viable (s.yield ++ [semicolon.token]) :=
      ⟨[], s, semicolon, List.append_nil _⟩
    exact ⟨_, List.append_assoc _ _ _, hviable.kind_ne, by simp⟩
  error hrun := by
    rcases run_statement_eq_error hrun with ⟨hstops, w, rfl, hviable⟩ | ⟨h, p, -, rfl, rfl⟩
    · exact ⟨⟨w, rfl, hviable.kind_ne⟩, fun _ => hstops.toIsAt⟩
    · exact ⟨⟨h.yield, rfl, h.viable.kind_ne⟩, fun hfault => absurd ⟨_, _, rfl⟩ hfault⟩

namespace Part

theorem consumes_reader (p : Part) : Consumes p.reader := by
  cases p with
  | statement => exact consumes_statement
  | expression => exact consumes_of_gives gives_expression (consumes_derived rfl)
  | conditional => exact consumes_of_gives gives_conditionalLevel (consumes_derived rfl)
  | level k => exact consumes_of_gives (gives_binaryLevel k) (consumes_derived rfl)

/-- Whatever tokens a part is read from, its recursion ends: with calls that are deep enough for
the number of tokens, it does not matter what is done further down. It consumes tokens from the
front, at least one if it succeeds, and no end of the input, so nothing after such an end has any
influence. It stops at the first token that it leaves, and its error says so, unless the error is
for a repeated parameter. -/
theorem reader_consumes (p : Part) (ts : List Token) :
    (∀ cut depth, Task.rankCount * (ts.length + 1) ≤ depth →
      (Task.unfolded cut depth Expr (.part p)).run ts = p.reader.run ts) ∧
    (∃ consumed, ts = consumed ++ (p.reader.run ts).2 ∧ (∀ t ∈ consumed, t.kind ≠ .endOfInput) ∧
      ∀ e, (p.reader.run ts).1 = .ok e → consumed ≠ []) ∧
    (∀ before stop after, ts = before ++ stop :: after → stop.kind = .endOfInput →
      ∃ left, ∀ after', p.reader.run (before ++ stop :: after') =
        ((p.reader.run ts).1, left ++ stop :: after')) ∧
    (∀ e, (p.reader.run ts).1 = .error e → ¬ e.fault.IsDuplicate → e.IsAt (p.reader.run ts).2) := by
  have hconsumed : ∃ consumed, ts = consumed ++ (p.reader.run ts).2 ∧
      (∀ t ∈ consumed, t.kind ≠ .endOfInput) ∧
        ∀ e, (p.reader.run ts).1 = .ok e → consumed ≠ [] := by
    rcases hrun : p.reader.run ts with ⟨e | e, rest⟩
    · obtain ⟨⟨w, hsplit, hends⟩, -⟩ := p.consumes_reader.error hrun
      exact ⟨w, hsplit.symm, hends, fun _ hok => by cases hok⟩
    · obtain ⟨w, hsplit, hends, hne⟩ := p.consumes_reader.ok hrun
      exact ⟨w, hsplit.symm, hends, fun _ _ => hne⟩
  refine ⟨fun cut depth h => Task.run_unfolded cut (.part p) h, hconsumed, ?_, ?_⟩
  · rintro before stop after rfl hstop
    obtain ⟨w, hsplit, hends, -⟩ := hconsumed
    exact Follows.run_before_end Expr.mapLines_id (Task.part p).follows_reader hstop hsplit.symm
      hends
  · exact fun e herror => (p.consumes_reader.error (Prod.ext herror rfl)).2

end Part

end LetLang.Expr
