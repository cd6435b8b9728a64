import ExprFront.Proofs.Walk.Reading

/-!
The walks of the grammar read as its phrases do. It is one induction on how many tokens are ahead:
a factor reads what it holds behind a token that it has passed, and the loops around it are done by
then. Hence progress: a reading comes to an end wherever it begins, and not without having passed a
token where it gives a value.
-/

namespace ExprFront

namespace Walk

variable {α : Type} {ts : List Token} {bound depth : Nat}

/-! Expressions. -/

/-- A walk that has a token ahead ends as a phrase does behind that token. -/
def ReadsPast (ts : List Token) (t : Token) (bound depth : Nat) (q : Walk α) (p : Phrase α) :
    Prop :=
  ∀ w : Walker, ts[w.place]? = some t → w.depth = depth → ts.length < w.place + (bound + 1) →
    EndsAs ts w q p (ts.drop (w.place + 1))

theorem ReadsPast.advance {t : Token} {q : Walk α} {p : Phrase α} (h : Reads ts bound depth q p) :
    ReadsPast ts t bound depth (advance ts >>= fun _ => q) p := by
  intro w htoken hdepth hbound
  obtain ⟨outcome, after, hq, honward, hread⟩ :=
    h { w with place := w.place + 1 } (lt_length_of_peeked htoken) hdepth
      (by change _ < w.place + 1 + bound; omega)
  exact ⟨outcome, after, (bind_of_ok (advance_of_peeked htoken) _).trans hq,
    (onward_of_peeked htoken).trans honward, hread⟩

theorem ReadsPast.fail (t : Token) (expected : Expected) :
    ReadsPast ts t bound depth (throw ⟨t, expected⟩) (Phrase.failAt t expected : Phrase α) :=
  fun w htoken _ _ => ⟨_, w, rfl, .refl (Nat.le_of_lt (lt_length_of_peeked htoken)), rfl⟩

theorem Reads.any {k : Token → Walk α} {f : Token → Phrase α} {expected : Expected}
    (h : ∀ t, ReadsPast ts t bound depth (k t) (f t)) :
    Reads ts (bound + 1) depth
      (peek ts >>= fun t? =>
        match t? with
        | none => throw ⟨none, expected⟩
        | some t => k t)
      (Phrase.any expected >>= f) := by
  intro w hplace hdepth hbound
  rw [EndsAs, bind_of_ok (peek_of rfl)]
  cases htoken : ts[w.place]? with
  | none =>
      rw [drop_of_end htoken]
      exact ⟨_, w, rfl, .refl hplace, rfl⟩
  | some t =>
      rw [drop_of_peeked htoken]
      exact h t w htoken hdepth hbound

variable {r : Reader}

theorem Reads.factor
    (ih : ∀ part : Nonterminal,
      Reads r.tokens bound (depth + 1) (r.read part) (part.phrase (r.limit - (depth + 1)))) :
    Reads r.tokens (bound + 1) depth r.factor (Expr.factor (r.limit - depth)) := by
  rw [Reader.factor, factor_eq_factorWith]
  apply Reads.any
  intro t
  cases t.kind with
  | integer => exact .advance (.pure _)
  | float => exact .advance (.pure _)
  | identifier =>
      apply ReadsPast.advance
      apply Reads.bind (.check _ _)
      intro isCall
      cases isCall with
      | true => exact .deeper t (ih (.call t.text))
      | false => exact .pure _
  | operator =>
      cases UnaryOp.ofSymbol? t.text with
      | none => exact .fail t _
      | some op =>
          apply ReadsPast.advance
          exact .deeper_bind t (ih .factor) fun e => .pure _
  | punctuation =>
      by_cases htext : t.text = "("
      · simp only [htext, if_true]
        apply ReadsPast.advance
        apply Reads.deeper_bind t (ih .expression)
        intro e
        exact .bind (.expect _ _) fun _ => .pure e
      · simp only [htext, if_false]
        exact .fail t _
  | keyword => exact .fail t _
  | string => exact .fail t _

theorem Reads.chain {loop : Loop} {ops : List BinaryOp} {operand : Nonterminal}
    {operand' : Phrase Expr} (h : Reads r.tokens bound depth (r.read operand) operand') :
    Reads r.tokens bound depth (r.chain loop ops operand) (Expr.chain ops operand') := by
  rw [Reader.chain, Expr.chain_eq]
  apply Reads.bind h
  intro left
  exact .joins loop (Reader.operations.eq_1 r loop ops operand) h left

theorem call_eq (r : Reader) (function : String) :
    r.call function =
      parenthesised r.tokens (r.arguments []) >>= fun args => pure (.call function args) := by
  rw [Reader.call, parenthesised, bind_assoc]
  congr 1
  funext _
  rw [bind_assoc]
  congr 1
  funext isEmpty
  cases isEmpty with
  | true => simp only [if_true, bind_assoc, pure_bind]
  | false => simp only [Bool.false_eq_true, if_false, bind_assoc, pure_bind]

theorem Reads.call (h : Reads r.tokens bound depth (r.read .expression)
      (Expr.phrase (r.limit - depth))) (function : String) :
    Reads r.tokens bound depth (r.call function)
      ((Nonterminal.call function).phrase (r.limit - depth)) := by
  rw [call_eq]
  apply Reads.map
  apply Reads.parenthesised
  exact .items .arguments (Reader.arguments.eq_1 r) (fun _ => h) []

/-- What a nonterminal reads in an expression. -/
theorem Reads.nonterminal (r : Reader) (bound depth : Nat) (part : Nonterminal) :
    Reads r.tokens bound depth (r.read part) (part.phrase (r.limit - depth)) := by
  induction bound generalizing depth part with
  | zero => exact .zero _ _ _
  | succ bound ih =>
      have hfactor : Reads r.tokens (bound + 1) depth (r.read .factor)
          (Expr.factor (r.limit - depth)) := by
        rw [Reader.read]
        exact .factor fun part => ih (depth + 1) part
      have hterm : Reads r.tokens (bound + 1) depth (r.read .term)
          (Nonterminal.term.phrase (r.limit - depth)) := by
        rw [Reader.read]
        exact .chain hfactor
      have hexpression : Reads r.tokens (bound + 1) depth (r.read .expression)
          (Expr.phrase (r.limit - depth)) := by
        rw [Reader.read]
        exact .chain hterm
      cases part with
      | factor => exact hfactor
      | term => exact hterm
      | expression => exact hexpression
      | call function =>
          rw [Reader.read]
          exact .call hexpression function

/-! Statements. -/

theorem Reads.parameter (earlier : List String) :
    Reads r.tokens bound depth (r.parameter earlier) (Statement.parameter earlier) := by
  intro w hplace _ _
  rw [EndsAs, Reader.parameter, bind_of_ok (peek_of rfl)]
  cases htoken : r.tokens[w.place]? with
  | none =>
      refine ⟨_, w, bind_of_error (take_of_end htoken _ _) _, .refl hplace, ?_⟩
      rw [drop_of_end htoken]
      rfl
  | some t =>
      rw [drop_of_peeked htoken, Statement.parameter, Phrase.read_bind]
      by_cases hkind : t.kind = .identifier
      · have hname : name? t = some t.text := if_pos hkind
        simp only [Phrase.take, hkind, if_true]
        rw [Walk.identifier, bind_of_ok (take_of_some htoken hname _)]
        by_cases hearlier : t.text ∈ earlier
        · simp only [hearlier, if_true]
          exact ⟨_, _, rfl, onward_of_peeked htoken, rfl⟩
        · simp only [hearlier, if_false]
          exact ⟨_, _, rfl, onward_of_peeked htoken, rfl⟩
      · have hname : name? t = none := if_neg hkind
        simp only [Phrase.take, hkind, if_false]
        exact ⟨_, w, bind_of_error (take_of_none htoken hname _) _, .refl hplace, rfl⟩

theorem Reads.returning (r : Reader) (bound depth : Nat) :
    Reads r.tokens bound depth r.returning (Statement.returnPhrase (r.limit - depth)) := by
  apply Reads.bind (.expect _ _)
  intro _
  exact (Reads.nonterminal r bound depth .expression).map _

theorem Reads.bodyEnds :
    Reads r.tokens bound depth r.bodyEnds (not <$> Phrase.nextIs .keyword "return") :=
  (Reads.check _ _).map not

theorem Reads.returns (done : List Statement) :
    Reads r.tokens bound depth (r.returns done)
      (Statement.returnsFrom (r.limit - depth) done) :=
  .until .returns (Reader.returns.eq_1 r) .bodyEnds (.returning r bound depth)
    (Statement.returnPhrase_consumes _) _ done

theorem Reads.definition (r : Reader) (bound depth : Nat) :
    Reads r.tokens bound depth r.definition (Statement.definitionPhrase (r.limit - depth)) := by
  apply Reads.bind (.expect _ _)
  intro _
  apply Reads.bind (.identifier _)
  intro name
  apply Reads.bind
  · apply Reads.parenthesised
    exact .items .parameters (Reader.parameters.eq_1 r) (fun done => .parameter done) []
  · intro params
    apply Reads.bind (.expect _ _)
    intro _
    rw [Statement.body_eq, Functor.map_map]
    exact (Reads.returns []).map _

theorem Reads.assignment (r : Reader) (bound depth : Nat) :
    Reads r.tokens bound depth r.assignment (Statement.assigned (r.limit - depth)) := by
  apply Reads.bind (.identifier _)
  intro target
  apply Reads.bind (.expect _ _)
  intro _
  exact (Reads.nonterminal r bound depth .expression).map _

theorem Reads.statement (r : Reader) (bound depth : Nat) :
    Reads r.tokens bound depth r.statement (Statement.phrase (r.limit - depth)) := by
  intro w hplace hdepth hbound
  have hlookahead : lookahead r.tokens 1 w = some (.ok r.tokens[w.place + 1]?, w) := rfl
  rw [EndsAs, Reader.statement, bind_of_ok (peek_of rfl), bind_of_ok hlookahead]
  simp only [Statement.phrase, Phrase.ahead, List.head?_drop]
  by_cases hdef : r.tokens[w.place]?.any (·.is .keyword "def")
  · simp only [hdef, if_true]
    exact Reads.definition r bound depth w hplace hdepth hbound
  · simp only [hdef, Bool.false_eq_true, if_false]
    by_cases hassigns : r.tokens[w.place]?.any (·.kind = .identifier) ∧
        r.tokens[w.place + 1]?.any (·.is .operator "=")
    · rw [if_pos hassigns]
      obtain ⟨t, ht, hkind⟩ := (Option.any_eq_true _ _).mp hassigns.1
      obtain ⟨u, hu, hsign⟩ := (Option.any_eq_true _ _).mp hassigns.2
      rw [decide_eq_true_iff] at hkind
      have hassigned := Reads.assignment r bound depth w hplace hdepth hbound
      rw [EndsAs, drop_of_peeked ht, drop_of_peeked hu,
        Statement.read_assigned hkind hsign] at hassigned
      rw [drop_of_peeked ht, drop_of_peeked hu, Statement.target?_of_sign hkind hsign]
      exact hassigned
    · rw [if_neg hassigns, Statement.target?_drop_eq_none hassigns]
      exact (Reads.nonterminal r bound depth .expression).map _ w hplace hdepth hbound

theorem Reads.statements (done : List Statement) :
    Reads r.tokens bound depth (r.statements done)
      (Program.statementsFrom (r.limit - depth) done) :=
  .until .statements (Reader.statements.eq_1 r) .atEnd (.statement r bound depth)
    (Statement.phrase_consumes _) _ done

theorem Reads.program (r : Reader) (bound depth : Nat) :
    Reads r.tokens bound depth r.program (Program.phrase (r.limit - depth)) := by
  apply Reads.bind (.statements [])
  intro reversed
  exact .pure _

end Walk

/-- What has a function of its own that reads it: a part of an expression, or a kind of statement.
An assignment and a definition can be asked for also where none begins. -/
inductive Construct : Type → Type where
  | expr (part : Nonterminal) : Construct Expr
  | statement : Construct Statement
  | assignment : Construct Statement
  | definition : Construct Statement
  | returning : Construct Statement

namespace Construct

variable {α : Type}

def walk (r : Reader) : Construct α → Walk α
  | expr part => r.read part
  | statement => r.statement
  | assignment => r.assignment
  | definition => r.definition
  | returning => r.returning

def phrase (levels : Nat) : Construct α → Phrase α
  | expr part => part.phrase levels
  | statement => Statement.phrase levels
  | assignment => Statement.assigned levels
  | definition => Statement.definitionPhrase levels
  | returning => Statement.returnPhrase levels

theorem phrase_consumes (levels : Nat) (construct : Construct α) :
    (construct.phrase levels).Consumes := by
  cases construct with
  | expr part =>
      cases part with
      | factor => exact Expr.factor_consumes levels
      | call function => exact .map (.bind (Phrase.expect_consumes _ _) _) _
      | term => exact Expr.chain_consumes _ (Expr.factor_consumes levels)
      | expression => exact Expr.phrase_consumes levels
  | statement => exact Statement.phrase_consumes levels
  | assignment => exact .bind (Phrase.identifier_consumes _) _
  | definition => exact .bind (Phrase.expect_consumes _ _) _
  | returning => exact Statement.returnPhrase_consumes levels

theorem reads (r : Reader) (bound depth : Nat) (construct : Construct α) :
    Walk.Reads r.tokens bound depth (construct.walk r) (construct.phrase (r.limit - depth)) := by
  cases construct with
  | expr part => exact .nonterminal r bound depth part
  | statement => exact .statement r bound depth
  | assignment => exact .assignment r bound depth
  | definition => exact .definition r bound depth
  | returning => exact .returning r bound depth

end Construct

theorem lt_place_of_consumes {α : Type} {ts : List Token} {p : Phrase α} {w after : Walker} {a : α}
    (hp : p.Consumes) (hplace : w.place ≤ ts.length)
    (hread : p.read (ts.drop w.place) = .ok (a, ts.drop after.place)) :
    w.place < after.place := by
  have hshorter := hp _ _ _ hread
  rw [List.length_drop, List.length_drop] at hshorter
  omega

theorem Program.rest_eq_nil {levels : Nat} {ts rest : List Token} {p : Program}
    (h : (phrase levels).read ts = .ok (p, rest)) : rest = [] := by
  rw [phrase_eq] at h
  obtain ⟨done, mid, hdone, hrest⟩ := Phrase.read_bind_eq_ok.mp h
  cases hrest
  refine Phrase.iterate_induction (motive := fun _ _ => rest = []) ?_ (fun _ _ _ _ _ h => h) hdone
  intro us hround
  have hend := Phrase.another_eq_none hround
  cases us with
  | nil =>
      cases hend
      rfl
  | cons t us => cases hend

namespace Program

/-- From any index within the tokens, every construct is read to an end, which is what its phrase
makes of the tokens ahead. Be it a value or an error, the index has not gone back nor past the end,
and each round of a loop has passed a token or was the last; for a value a token was passed. So the
reading of a program ends as well, and where there is a program no token is left. -/
theorem ofTokens_progresses (ts : List Token) :
    (∀ {α : Type} (construct : Construct α) (w : Walker), w.place ≤ ts.length →
      ∃ outcome after, construct.walk ⟨ts, maxNesting⟩ w = some (outcome, after) ∧
        (construct.phrase (maxNesting - w.depth)).read (ts.drop w.place) =
          outcome.map (fun a => (a, ts.drop after.place)) ∧
        Onward ts w after ∧ ∀ a, outcome = .ok a → w.place < after.place) ∧
    ∃ after, Reader.program ⟨ts, maxNesting⟩ .start = some (ofTokens ts, after) ∧
      Onward ts .start after ∧ ∀ p, ofTokens ts = .ok p → after.place = ts.length := by
  constructor
  · intro α construct w hplace
    have hahead : ts.length < w.place + (ts.length + 1) := by omega
    obtain ⟨outcome, after, hwalk, honward, hread⟩ :=
      construct.reads ⟨ts, maxNesting⟩ (ts.length + 1) w.depth w hplace rfl hahead
    refine ⟨outcome, after, hwalk, hread, honward, ?_⟩
    rintro a rfl
    exact lt_place_of_consumes (construct.phrase_consumes _) hplace hread
  · obtain ⟨outcome, after, hwalk, honward, hread⟩ :=
      Walk.Reads.program ⟨ts, maxNesting⟩ (ts.length + 1) 0 .start (Nat.zero_le _) rfl
        (Nat.lt_add_left _ (Nat.lt_succ_self _))
    change (phrase maxNesting).read ts = _ at hread
    have houtcome : ofTokens ts = outcome := by
      rw [ofTokens, ofTokensWithin, hread]
      cases outcome with
      | error e => rfl
      | ok p => rfl
    rw [houtcome]
    refine ⟨after, hwalk, honward, ?_⟩
    rintro p rfl
    have hnil := List.drop_eq_nil_iff.mp (rest_eq_nil hread)
    exact Nat.le_antisymm honward.le_length hnil

/-- A call whose arguments are a name that is spelled as a parenthesis, and a number that is
spelled as a name. -/
def misspelledCall : List Token :=
  [⟨.identifier, "f", ⟨1, 1⟩⟩, ⟨.punctuation, "(", ⟨1, 2⟩⟩, ⟨.identifier, ")", ⟨1, 3⟩⟩,
    ⟨.punctuation, ",", ⟨1, 4⟩⟩, ⟨.integer, "x", ⟨1, 5⟩⟩, ⟨.punctuation, ")", ⟨1, 6⟩⟩]

theorem ofTokens_progresses_misspelledCall :
    1 ≤ misspelledCall.length ∧
      (∃ after, (Construct.expr (.call "f")).walk ⟨misspelledCall, maxNesting⟩ ⟨1, 256, []⟩ =
          some (.ok (.call "f" [.var ")", .number "x" false]), after) ∧
        after.place = 6 ∧ after.depth = 256) ∧
      ∃ after, Reader.program ⟨misspelledCall, maxNesting⟩ .start =
          some (.ok ⟨[.expression (.call "f" [.var ")", .number "x" false])]⟩, after) ∧
        after.place = 6 := by
  have hplace : 1 ≤ misspelledCall.length := by decide
  obtain ⟨hconstructs, after, hprogram, _, hend⟩ := ofTokens_progresses misspelledCall
  have hofTokens : ofTokens misspelledCall =
      .ok ⟨[.expression (.call "f" [.var ")", .number "x" false])]⟩ := by decide +kernel
  refine ⟨hplace, ?_, after, hofTokens ▸ hprogram, hend _ hofTokens⟩
  obtain ⟨outcome, last, hcall, hread, honward, _⟩ :=
    hconstructs (.expr (.call "f")) ⟨1, 256, []⟩ hplace
  have hvalue : ((Construct.expr (.call "f")).phrase 0).read (misspelledCall.drop 1) =
      .ok (.call "f" [.var ")", .number "x" false], []) := by decide +kernel
  have houtcome := hread.symm.trans hvalue
  cases outcome with
  | error e => cases houtcome
  | ok e =>
      have hpair := Except.ok.inj houtcome
      obtain rfl := congrArg Prod.fst hpair
      have hall : 6 ≤ last.place := List.drop_eq_nil_iff.mp (congrArg Prod.snd hpair)
      exact ⟨last, hcall, Nat.le_antisymm honward.le_length hall, honward.depth_eq⟩

end Program

end ExprFront
