import ExprFront.Proofs.Counter

/-!
With a limit, a counted reading reads as the phrases do, and gives the counter back as it was.
-/

namespace ExprFront.Counted

variable {α β : Type}

theorem bind_of_error {q : Counted α} {c c' : Cursor} {e : ParseError} (h : q c = (.error e, c'))
    (f : α → Counted β) : (q >>= f) c = (.error e, c') := by
  simp only [bind, h]

theorem bind_of_ok {q : Counted α} {c c' : Cursor} {a : α} (h : q c = (.ok a, c'))
    (f : α → Counted β) : (q >>= f) c = f a c' := by
  simp only [bind, h]

theorem within_none (opener : Token) (body : Counted α) (c : Cursor) :
    within none opener body c = closing body (c.enter opener) := rfl

theorem within_of_open {n : Nat} {c : Cursor} (h : c.depth < n) (opener : Token)
    (body : Counted α) : within (some n) opener body c = closing body (c.enter opener) :=
  bind_of_ok (if_neg (by simpa using h)) _

theorem within_of_full {n : Nat} {c : Cursor} (h : n ≤ c.depth) (opener : Token)
    (body : Counted α) :
    within (some n) opener body c = (.error ⟨opener, .shallowerExpression⟩, c) :=
  bind_of_error (if_pos (by simpa using h)) _

/-- What a phrase makes of the tokens ahead is what a counted reading does: the same error, or the
same value with the same tokens left. -/
def Agrees (outcome : Except ParseError (α × List Token)) (r : Except ParseError α × Cursor) :
    Prop :=
  match outcome with
  | .error e => r.1 = .error e
  | .ok (a, rest) => r.1 = .ok a ∧ r.2.ahead = rest

/-- From a depth on, and with at most so many tokens ahead, a counted reading agrees with a phrase
and gives the counter back. -/
def Reads (depth bound : Nat) (q : Counted α) (p : Phrase α) : Prop :=
  ∀ c, c.depth = depth → c.ahead.length ≤ bound →
    (q c).2.depth = depth ∧ Agrees (p.read c.ahead) (q c)

variable {depth bound : Nat}

theorem Reads.pure (a : α) : Reads depth bound (Pure.pure a) (Pure.pure a) := by
  intro c hdepth hbound
  exact ⟨hdepth, rfl, rfl⟩

theorem Reads.ofPhrase (p : Phrase α) : Reads depth bound (ofPhrase p) p := by
  intro c hdepth hbound
  simp only [Counted.ofPhrase]
  cases p.read c.ahead with
  | error e => exact ⟨hdepth, rfl⟩
  | ok r => exact ⟨hdepth, rfl, rfl⟩

/-- What comes second may count on fewer tokens, where the first takes some. -/
theorem Reads.bind_of_length {bound' : Nat} {q : Counted α} {p : Phrase α} {g : α → Counted β}
    {f : α → Phrase β} (h : Reads depth bound q p)
    (hlength : ∀ ts a rest, ts.length ≤ bound → p.read ts = .ok (a, rest) → rest.length ≤ bound')
    (hnext : ∀ a, Reads depth bound' (g a) (f a)) : Reads depth bound (q >>= g) (p >>= f) := by
  intro c hdepth hbound
  obtain ⟨hkept, hagrees⟩ := h c hdepth hbound
  obtain ⟨outcome, c', hq⟩ : ∃ outcome c', q c = (outcome, c') := ⟨_, _, rfl⟩
  rw [hq] at hkept hagrees
  rw [Phrase.read_bind]
  cases hp : p.read c.ahead with
  | error e =>
      rw [hp] at hagrees
      obtain rfl : outcome = .error e := hagrees
      rw [bind_of_error hq]
      exact ⟨hkept, rfl⟩
  | ok r =>
      obtain ⟨a, rest⟩ := r
      rw [hp] at hagrees
      obtain ⟨ha, hrest⟩ : outcome = .ok a ∧ c'.ahead = rest := hagrees
      subst ha hrest
      rw [bind_of_ok hq]
      exact hnext a c' hkept (hlength _ _ _ hbound hp)

theorem Reads.bind {q : Counted α} {p : Phrase α} {g : α → Counted β} {f : α → Phrase β}
    (h : Reads depth bound q p) (hnext : ∀ a, Reads depth bound (g a) (f a)) :
    Reads depth bound (q >>= g) (p >>= f) :=
  h.bind_of_length (fun _ _ _ hts hp => Nat.le_trans (p.length_le hp) hts) hnext

theorem Reads.map {q : Counted α} {p : Phrase α} (h : Reads depth bound q p) (f : α → β) :
    Reads depth bound (f <$> q) (f <$> p) :=
  h.bind fun a => .pure (f a)

theorem Reads.rounds {round : α → Counted (Option α)} {round' : α → Phrase (Option α)}
    (advances : ∀ a, (round' a).Advances) (h : ∀ a, Reads depth bound (round a) (round' a))
    (n : Nat) (a : α) (c : Cursor) (hdepth : c.depth = depth) (hbound : c.ahead.length ≤ bound)
    (hn : c.ahead.length < n) :
    (rounds round n a c).2.depth = depth ∧
      Agrees (Phrase.readRounds round' advances a c.ahead) (rounds round n a c) := by
  induction n generalizing a c with
  | zero => omega
  | succ n ih =>
      obtain ⟨hkept, hagrees⟩ := h a c hdepth hbound
      obtain ⟨outcome, c', hround⟩ : ∃ outcome c', round a c = (outcome, c') := ⟨_, _, rfl⟩
      rw [hround] at hkept hagrees
      rw [Phrase.readRounds, Counted.rounds]
      cases hread : (round' a).read c.ahead with
      | error e =>
          rw [hread] at hagrees
          obtain rfl : outcome = .error e := hagrees
          rw [bind_of_error hround]
          exact ⟨hkept, rfl⟩
      | ok r =>
          obtain ⟨b?, rest⟩ := r
          rw [hread] at hagrees
          obtain ⟨hb, hrest⟩ : outcome = .ok b? ∧ c'.ahead = rest := hagrees
          subst hb hrest
          rw [bind_of_ok hround]
          cases b? with
          | none => exact ⟨hkept, rfl, rfl⟩
          | some b =>
              have hshorter := advances a _ _ _ hread
              exact ih b c' hkept (by omega) (by omega)

theorem Reads.iterate {round : α → Counted (Option α)} {round' : α → Phrase (Option α)}
    (advances : ∀ a, (round' a).Advances) (h : ∀ a, Reads depth bound (round a) (round' a))
    (a : α) : Reads depth bound (iterate round a) (Phrase.iterate round' advances a) :=
  fun c hdepth hbound => Reads.rounds advances h _ a c hdepth hbound (Nat.lt_succ_self _)

theorem Reads.after? (sign? : Token → Option β) {next : β → Counted α} {next' : β → Phrase α}
    (h : ∀ b, Reads depth bound (next b) (next' b)) :
    Reads depth bound (after? sign? next) (Phrase.after? sign? next') := by
  apply Reads.bind (.ofPhrase _)
  intro sign
  cases sign with
  | none => exact .pure none
  | some b => exact (h b).map some

theorem Reads.another (finished : Phrase Bool) {item : Counted α} {item' : Phrase α}
    (h : Reads depth bound item item') :
    Reads depth bound (another finished item) (Phrase.another finished item') := by
  apply Reads.bind (.ofPhrase _)
  intro isFinished
  cases isFinished with
  | true => exact .pure none
  | false => exact h.map some

theorem Reads.itemsReversed {item : Counted α} {item' : Phrase α}
    (h : Reads depth bound item item') :
    Reads depth bound (itemsReversed item) (Phrase.itemsReversed fun _ => item') := by
  apply Reads.bind h
  intro first
  exact .iterate _ (fun done => .after? _ fun _ => h.map (· :: done)) [first]

theorem Reads.parenthesised {item : Counted α} {item' : Phrase α}
    (h : Reads depth bound item item') :
    Reads depth bound (parenthesised item) (Phrase.parenthesised fun _ => item') := by
  have hclose : ∀ reversed : List α, Reads depth bound
      (Counted.ofPhrase (Phrase.expect .punctuation ")") >>= fun _ => Pure.pure reversed.reverse)
      (Phrase.expect .punctuation ")" >>= fun _ => Pure.pure reversed.reverse) :=
    fun reversed => .bind (.ofPhrase _) fun _ => .pure _
  apply Reads.bind (.ofPhrase _)
  intro _
  apply Reads.bind (.ofPhrase _)
  intro isEmpty
  cases isEmpty with
  | true => exact .bind (.pure []) hclose
  | false => exact .bind h.itemsReversed hclose

theorem Reads.chain (ops : List BinaryOp) {operand : Counted Expr} {operand' : Phrase Expr}
    (h : Reads depth bound operand operand') :
    Reads depth bound (chain ops operand) (Expr.chain ops operand') := by
  apply Reads.bind h
  intro first
  exact .iterate _ (fun left => .after? _ fun op => h.map (.binary op left)) first

theorem Reads.sum {factor : Counted Expr} {factor' : Phrase Expr}
    (h : Reads depth bound factor factor') :
    Reads depth bound (sum factor) (Expr.sum factor') :=
  .chain _ (.chain _ h)

/-! Levels. -/

/-- A reading of factors one level further in, where the limit allows for one. -/
def ReadsInner (n depth bound : Nat) (factor : Counted Expr) : Option (Phrase Expr) → Prop
  | none => n ≤ depth
  | some inner => depth < n ∧ Reads (depth + 1) bound factor inner

theorem Reads.within {n : Nat} {factor : Counted Expr} {inner : Option (Phrase Expr)}
    (hinner : ReadsInner n depth bound factor inner) (opener : Token)
    {body : Counted Expr} {body' : Phrase Expr → Phrase Expr}
    (hbody : ∀ inner, Reads (depth + 1) bound factor inner →
      Reads (depth + 1) bound body (body' inner)) :
    Reads depth bound (within (some n) opener body) (Expr.deeper opener inner body') := by
  intro c hdepth hbound
  cases inner with
  | none =>
      have hfull : n ≤ c.depth := hdepth ▸ hinner
      rw [within_of_full hfull]
      exact ⟨hdepth, rfl⟩
  | some inner =>
      obtain ⟨hless, hreads⟩ := hinner
      rw [within_of_open (hdepth ▸ hless)]
      obtain ⟨hkept, hagrees⟩ := hbody inner hreads (c.enter opener)
        (congrArg (· + 1) hdepth) hbound
      exact ⟨by simp only [closing, hkept, Nat.add_sub_cancel], hagrees⟩

theorem read_deeper_bind (opener : Token) (inner : Option (Phrase Expr))
    (body : Phrase Expr → Phrase Expr) (next : Expr → Phrase Expr) :
    (Expr.deeper opener inner fun factor => body factor >>= next).read =
      (Expr.deeper opener inner body >>= next).read := by
  cases inner with
  | none => rfl
  | some factor => rfl

theorem Reads.of_read_eq {q : Counted α} {p p' : Phrase α} (h : Reads depth bound q p)
    (hread : p'.read = p.read) : Reads depth bound q p' := by
  intro c hdepth hbound
  rw [hread]
  exact h c hdepth hbound

theorem Reads.factorWith {n : Nat} {factor : Counted Expr} {inner : Option (Phrase Expr)}
    (hinner : ReadsInner n depth bound factor inner) :
    Reads depth (bound + 1) (factorWith (some n) factor) (Expr.factorWith inner) := by
  have hshorter : ∀ ts t rest, ts.length ≤ bound + 1 →
      (Phrase.any .expression).read ts = .ok (t, rest) → rest.length ≤ bound := by
    intro ts t rest hts hread
    have hlength := Phrase.any_consumes _ _ _ _ hread
    omega
  apply Reads.bind_of_length (.ofPhrase _) hshorter
  intro t
  cases t.kind with
  | integer => exact .pure _
  | float => exact .pure _
  | identifier =>
      apply Reads.bind (.ofPhrase _)
      intro isCall
      cases isCall with
      | true => exact .within hinner t fun inner h => (Reads.parenthesised h.sum).map _
      | false => exact .pure _
  | operator =>
      cases UnaryOp.ofSymbol? t.text with
      | none => exact .ofPhrase _
      | some op => exact .within hinner t fun inner h => h.map _
  | punctuation =>
      by_cases htext : t.text = "("
      · simp only [htext, if_true]
        refine Reads.of_read_eq ?_ (read_deeper_bind t inner Expr.sum _)
        apply Reads.bind (.within hinner t fun inner h => h.sum)
        intro e
        apply Reads.bind (.ofPhrase _)
        intro _
        exact .pure e
      · simp only [htext, if_false]
        exact .ofPhrase _
  | keyword => exact .ofPhrase _
  | string => exact .ofPhrase _

theorem Reads.factor {n left depth : Nat} (h : depth + left = n) (bound : Nat) :
    Reads depth bound (Counted.factor (some n) bound) (Expr.factor left) := by
  induction bound generalizing left depth with
  | zero =>
      intro c hdepth hbound
      have hnil : c.ahead = [] := List.length_eq_zero_iff.mp (Nat.le_zero.mp hbound)
      rw [hnil]
      cases left with
      | zero => exact ⟨hdepth, rfl⟩
      | succ left => exact ⟨hdepth, rfl⟩
  | succ bound ih =>
      cases left with
      | zero =>
          have hinner : ReadsInner n depth bound (Counted.factor (some n) bound) none := by
            simp only [ReadsInner]
            omega
          exact .factorWith hinner
      | succ left =>
          have hinner : ReadsInner n depth bound (Counted.factor (some n) bound)
              (some (Expr.factor left)) :=
            ⟨by omega, ih (by omega)⟩
          exact .factorWith hinner

theorem Reads.expression (n bound : Nat) :
    Reads 0 bound (expression (some n)) (Expr.phrase n) :=
  fun c hdepth _ => (Reads.factor (Nat.zero_add n) c.ahead.length).sum c hdepth (Nat.le_refl _)

/-! Statements. -/

theorem Reads.returning (n bound : Nat) :
    Reads 0 bound (returning (some n)) (Statement.returnPhrase n) := by
  apply Reads.bind (.ofPhrase _)
  intro _
  exact (Reads.expression n bound).map _

theorem Reads.body (n bound : Nat) : Reads 0 bound (body (some n)) (Statement.body n) := by
  apply Reads.map
  exact .iterate _ (fun done => .another _ ((Reads.returning n bound).map (· :: done))) []

theorem Reads.definition (n bound : Nat) :
    Reads 0 bound (definition (some n)) (Statement.definitionPhrase n) := by
  apply Reads.bind (.ofPhrase _)
  intro _
  apply Reads.bind (.ofPhrase _)
  intro name
  apply Reads.bind (.ofPhrase _)
  intro params
  apply Reads.bind (.ofPhrase _)
  intro _
  exact (Reads.body n bound).map _

theorem Reads.assignment (target : String) (n bound : Nat) :
    Reads 0 bound (assignment target (some n)) (Statement.assignmentPhrase target n) := by
  apply Reads.bind (.ofPhrase _)
  intro _
  exact (Reads.expression n bound).map _

theorem Reads.statement (n bound : Nat) :
    Reads 0 bound (statement (some n)) (Statement.phrase n) := by
  intro c hdepth hbound
  simp only [Counted.statement, Statement.phrase, Phrase.ahead]
  by_cases hdef : c.ahead.head?.any (·.is .keyword "def")
  · simp only [if_pos hdef]
    exact Reads.definition n bound c hdepth hbound
  · simp only [if_neg hdef]
    cases Statement.target? c.ahead with
    | none => exact (Reads.expression n bound).map _ c hdepth hbound
    | some target => exact Reads.assignment target n bound c hdepth hbound

theorem Reads.program (n bound : Nat) : Reads 0 bound (program (some n)) (Program.phrase n) := by
  apply Reads.bind
  · exact .iterate _ (fun done => .another _ ((Reads.statement n bound).map (· :: done))) []
  · intro reversed
    exact .pure _

/-- With a limit, the counted reading of a token list gives the program or the error that the
phrases give, and no level is left open. -/
theorem ofTokens_some (n : Nat) (ts : List Token) :
    (ofTokens (some n) ts).1 = Program.ofTokensWithin n ts ∧
      (ofTokens (some n) ts).2.depth = 0 := by
  obtain ⟨hdepth, hagrees⟩ := Reads.program n ts.length ⟨ts, 0, []⟩ rfl (Nat.le_refl _)
  refine ⟨?_, hdepth⟩
  rw [Program.ofTokensWithin]
  change Agrees ((Program.phrase n).read ts) (ofTokens (some n) ts) at hagrees
  cases hread : (Program.phrase n).read ts with
  | error e =>
      rw [hread] at hagrees
      exact hagrees
  | ok r =>
      rw [hread] at hagrees
      exact hagrees.1

end ExprFront.Counted
