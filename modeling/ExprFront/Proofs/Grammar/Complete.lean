import ExprFront.Proofs.Grammar.Sound

/-!
What derives in the greedy grammar is read, and with this the grammar is exactly what is accepted.
A derivation says where each construct ends; that no construct reads past its end is what being
greedy asks of the next token.
-/

namespace ExprFront

open Grammar Phrase

namespace Expr

variable {γ : Type} {next : Expr → List Token → Except ParseError γ}

theorem factor_succ (n : Nat) : factor (n + 1) = factorWith (some (factor n)) := rfl

theorem phrase_eq (n : Nat) : phrase n = sum (factor n) := rfl

theorem factor_eq_factorWith (n : Nat) : ∃ inner, factor n = factorWith inner := by
  cases n with
  | zero => exact ⟨none, rfl⟩
  | succ n => exact ⟨some (factor n), rfl⟩

theorem andThen_expect_of_next {kind : Token.Kind} {text : String} {ts : List Token}
    (h : Next (·.is kind text) ts) (follow : Unit → List Token → Except ParseError γ) :
    (expect kind text).andThen follow ts = follow () ts.tail := by
  cases ts with
  | nil => exact absurd h (not_next_nil _)
  | cons t ts =>
      rw [next_cons] at h
      rw [andThen_expect_cons, if_pos h]
      rfl

theorem andThen_itemsFrom_of_close {α : Type} {item : List α → Phrase α} {ts : List Token}
    {follow : List α → List Token → Except ParseError γ}
    (h : Next (·.is .punctuation ")") ts) (done : List α) :
    (itemsFrom item done).andThen follow ts = follow done ts := by
  cases ts with
  | nil => exact absurd h (not_next_nil _)
  | cons t ts =>
      rw [next_cons, Token.is_iff] at h
      have hcomma : ¬ t.is .punctuation "," := by simp [Token.is_iff, h.2]
      rw [andThen_itemsFrom_cons, if_neg hcomma]

theorem andThen_joinFrom_of_end {ops : List BinaryOp} {operand : Phrase Expr} {rest : List Token}
    (hend : ¬ Next (SignOf ops) rest) (left : Expr) :
    (joinFrom ops operand left).andThen next rest = next left rest := by
  cases rest with
  | nil => exact andThen_joinFrom_nil ops operand left
  | cons t ts =>
      rw [next_cons, ← operation?_eq_none_iff] at hend
      rw [andThen_joinFrom_cons, hend]

theorem andThen_joinFrom_of_sign {ops : List BinaryOp} {operand : Phrase Expr} {op : BinaryOp}
    {t : Token} (hmem : op ∈ ops) (hsign : Sign op t) (left : Expr) (ts : List Token) :
    (joinFrom ops operand left).andThen next (t :: ts) =
      operand.andThen
        (fun right => (joinFrom ops operand (binary op left right)).andThen next) ts := by
  rw [andThen_joinFrom_cons, operation?_eq_some_iff.mpr ⟨hmem, hsign⟩]

end Expr

namespace Expr

mutual

theorem factor_complete {γ : Type} {next : Expr → List Token → Except ParseError γ} :
    ∀ {n ts e rest}, Factor True n ts e rest → (factor n).andThen next ts = next e rest
  | n, _, _, _, .integer hkind => by
      obtain ⟨inner, hfactor⟩ := factor_eq_factorWith n
      rw [hfactor, andThen_factorWith_cons, hkind]
  | n, _, _, _, .float hkind => by
      obtain ⟨inner, hfactor⟩ := factor_eq_factorWith n
      rw [hfactor, andThen_factorWith_cons, hkind]
  | n, _, _, _, .var hkind hend => by
      obtain ⟨inner, hfactor⟩ := factor_eq_factorWith n
      rw [hfactor, andThen_factorWith_cons, hkind]
      exact if_neg (fun hopen => hend trivial ((next_is_iff _ _ _).mpr hopen))
  | _ + 1, _, _, _, .call hkind hu hes hv => by
      rw [factor_succ, andThen_factorWith_cons, hkind]
      simp only [List.head?_cons, Option.any_some, hu, if_true, deeper, andThen_map,
        parenthesised_eq, andThen_bind, andThen_expect_cons]
      exact arguments_complete hes ((next_cons _ _ _).mpr hv)
  | _ + 1, _, _, _, .unary hkind htext he => by
      rw [factor_succ, andThen_factorWith_cons, hkind]
      simp only [UnaryOp.ofSymbol?_eq_some_iff.mpr htext, deeper, andThen_map]
      exact factor_complete he
  | _ + 1, _, _, _, .parens ht he hv => by
      obtain ⟨hkind, htext⟩ := Token.is_iff.mp ht
      rw [factor_succ, andThen_factorWith_cons, hkind]
      simp only [htext, if_true, deeper, andThen_bind, andThen_pure]
      rw [← phrase_eq, phrase_complete he, andThen_expect_of_next ((next_cons _ _ _).mpr hv)]
      rfl

theorem products_complete {γ : Type} {next : Expr → List Token → Except ParseError γ} :
    ∀ {n ts others rest}, Products True n ts others rest → ∀ left,
      (joinFrom BinaryOp.products (factor n) left).andThen next ts =
        next (joined left others) rest
  | _, _, _, _, .nil hend, left => andThen_joinFrom_of_end (hend trivial) left
  | _, _, _, _, .cons hmem hsign he hothers, left => by
      rw [andThen_joinFrom_of_sign hmem hsign, factor_complete he, products_complete hothers]
      rfl

theorem term_complete {γ : Type} {next : Expr → List Token → Except ParseError γ} :
    ∀ {n ts e rest}, Term True n ts e rest →
      (chain BinaryOp.products (factor n)).andThen next ts = next e rest
  | _, _, _, _, .mk hfirst hothers => by
      rw [chain_eq, andThen_bind, factor_complete hfirst, products_complete hothers]

theorem sums_complete {γ : Type} {next : Expr → List Token → Except ParseError γ} :
    ∀ {n ts others rest}, Sums True n ts others rest → ∀ left,
      (joinFrom BinaryOp.sums (chain BinaryOp.products (factor n)) left).andThen next ts =
        next (joined left others) rest
  | _, _, _, _, .nil hend, left => andThen_joinFrom_of_end (hend trivial) left
  | _, _, _, _, .cons hmem hsign he hothers, left => by
      rw [andThen_joinFrom_of_sign hmem hsign, term_complete he, sums_complete hothers]
      rfl

theorem phrase_complete {γ : Type} {next : Expr → List Token → Except ParseError γ} :
    ∀ {n ts e rest}, Expression True n ts e rest → (phrase n).andThen next ts = next e rest
  | _, _, _, _, .mk hfirst hothers => by
      rw [phrase, sum, chain_eq, andThen_bind, term_complete hfirst, sums_complete hothers]

theorem arguments_complete {γ : Type} {next : List Expr → List Token → Except ParseError γ} :
    ∀ {n ts es rest}, Arguments True n ts es rest → Next (·.is .punctuation ")") rest →
      (listed fun _ => phrase n).andThen next ts = next es rest.tail
  | _, _, _, _, .none, hclose => by
      rw [andThen_listed, if_pos ((next_is_iff _ _ _).mp hclose)]
  | _, _, _, _, .some he hes, hclose => by
      have hopen := he.not_close
      rw [next_is_iff] at hopen
      rw [andThen_listed, if_neg hopen, itemsReversed_eq, andThen_bind, phrase_complete he,
        moreArguments_complete hes hclose, andThen_expect_of_next hclose]
      simp

theorem moreArguments_complete {γ : Type} {next : List Expr → List Token → Except ParseError γ} :
    ∀ {n ts es rest}, MoreArguments True n ts es rest → Next (·.is .punctuation ")") rest →
      ∀ done, (itemsFrom (fun _ => phrase n) done).andThen next ts =
        next (es.reverse ++ done) rest
  | _, _, _, _, .nil, hclose, done => andThen_itemsFrom_of_close hclose done
  | _, _, _, _, .cons ht he hes, hclose, done => by
      rw [andThen_itemsFrom_cons, if_pos ht, phrase_complete he,
        moreArguments_complete hes hclose]
      simp

end

end Expr

namespace Statement

variable {γ : Type}

theorem andThen_parameter_of_fresh {next : String → List Token → Except ParseError γ} {t : Token}
    (hkind : t.kind = .identifier) {earlier : List String} (hfresh : t.text ∉ earlier)
    (ts : List Token) : (parameter earlier).andThen next (t :: ts) = next t.text ts := by
  rw [parameter, andThen_bind, andThen_take_cons, if_pos hkind]
  simp only [if_neg hfresh, andThen_pure]

theorem moreParameters_complete {next : List String → List Token → Except ParseError γ}
    {ts rest : List Token} {names : List String} (h : MoreParameters ts names rest)
    (hclose : Next (·.is .punctuation ")") rest) (done : List String)
    (hnodup : (names.reverse ++ done).Nodup) :
    (itemsFrom parameter done).andThen next ts = next (names.reverse ++ done) rest := by
  induction h generalizing done with
  | nil => exact Expr.andThen_itemsFrom_of_close hclose done
  | cons ht hkind hmore ih =>
      rw [List.reverse_cons, List.append_assoc] at hnodup ⊢
      have hfresh : _ ∉ done := (List.nodup_cons.mp (List.nodup_append.mp hnodup).2.1).1
      rw [andThen_itemsFrom_cons, if_pos ht, andThen_parameter_of_fresh hkind hfresh]
      exact ih hclose _ hnodup

theorem parameters_complete {next : List String → List Token → Except ParseError γ}
    {ts rest : List Token} {names : List String} (h : Parameters ts names rest)
    (hnodup : names.Nodup) (hclose : Next (·.is .punctuation ")") rest) :
    (listed parameter).andThen next ts = next names rest.tail := by
  cases h with
  | none => rw [andThen_listed, if_pos ((next_is_iff _ _ _).mp hclose)]
  | @some t us names _ hkind hmore =>
      have hopen : ¬ (t :: us).head?.any (·.is .punctuation ")") := by
        simp [Token.is_iff, hkind]
      have hreverse : (names.reverse ++ [t.text]).Nodup := by
        rw [← List.reverse_cons]
        exact (List.reverse_perm _).nodup_iff.mpr hnodup
      rw [andThen_listed, if_neg hopen, itemsReversed_eq, andThen_bind,
        andThen_parameter_of_fresh hkind (List.not_mem_nil),
        moreParameters_complete hmore hclose _ hreverse, Expr.andThen_expect_of_next hclose]
      simp

theorem returns_complete {n : Nat} {next : List Statement → List Token → Except ParseError γ}
    {ts rest : List Token} {body : List Statement} (h : Returns True n ts body rest)
    (done : List Statement) :
    (returnsFrom n done).andThen next ts = next (body.reverse ++ done) rest := by
  induction h generalizing done with
  | @nil ts _ hend =>
      cases ts with
      | nil => exact andThen_returnsFrom_nil _ _ _
      | cons t ts =>
          rw [next_cons] at hend
          rw [andThen_returnsFrom_cons, if_neg (hend trivial)]
          rfl
  | cons ht he _ ih =>
      rw [andThen_returnsFrom_cons, if_pos ht, Expr.phrase_complete he, ih]
      simp

theorem not_def_of_starts {ts : List Token} (h : Next StartsFactor ts) :
    ¬ ts.head?.any (·.is .keyword "def") := by
  obtain ⟨t, ht, hstart⟩ := h
  rw [Option.mem_def.mp ht, Option.any_some, Token.is_iff]
  intro hdef
  obtain ⟨hkind, _⟩ := hdef
  exact hstart.not_keyword hkind

theorem phrase_complete {n : Nat} {next : Statement → List Token → Except ParseError γ}
    {ts rest : List Token} {s : Statement} (h : Stmt True n ts s rest) :
    (phrase n).andThen next ts = next s rest := by
  rw [phrase, andThen_ahead]
  cases h with
  | definition ht hname hu hparams hnodup hv hw hbody =>
      rw [List.head?_cons, Option.any_some, if_pos ht, definitionPhrase]
      simp only [andThen_bind, andThen_expect_cons, andThen_identifier_cons, parenthesised_eq,
        andThen_map, body_eq, if_pos ht, if_pos hname, if_pos hu]
      rw [parameters_complete hparams hnodup ((next_cons _ _ _).mpr hv), List.tail_cons,
        andThen_expect_cons, if_pos hw, returns_complete hbody]
      simp
  | @assignment _ target _ _ _ _ hkind ht he =>
      have hdef : ¬ target.is .keyword "def" := by simp [Token.is_iff, hkind]
      rw [List.head?_cons, Option.any_some, if_neg hdef]
      simp only [target?, hkind, ht, and_self, if_true, assignmentPhrase, andThen_bind,
        andThen_map, andThen_skip]
      exact Expr.phrase_complete he
  | expression hstart he =>
      rw [if_neg (not_def_of_starts he.starts), target?_eq_none_iff.mpr (hstart trivial)]
      simp only [andThen_map]
      exact Expr.phrase_complete he

end Statement

theorem Grammar.Stmt.ne_nil {n : Nat} {ts rest : List Token} {s : Statement}
    (h : Stmt True n ts s rest) : ts ≠ [] := by
  rintro rfl
  cases h with
  | expression _ he =>
      obtain ⟨t, ht, _⟩ := he.starts
      cases ht

namespace Program

theorem statements_complete {γ : Type} {next : List Statement → List Token → Except ParseError γ}
    {n : Nat} {ts : List Token} {ss : List Statement} (h : Prog True n ts ss)
    (done : List Statement) :
    (statementsFrom n done).andThen next ts = next (ss.reverse ++ done) [] := by
  induction h generalizing done with
  | nil => exact andThen_statementsFrom_nil _ _ _
  | @cons ts _ _ _ hs _ ih =>
      cases ts with
      | nil => exact absurd rfl hs.ne_nil
      | cons t ts =>
          rw [andThen_statementsFrom_cons, Statement.phrase_complete hs, ih]
          simp

theorem ofTokensWithin_eq_ok_iff {n : Nat} {ts : List Token} {p : Program} :
    ofTokensWithin n ts = .ok p ↔ Prog True n ts p.statements := by
  rw [ofTokensWithin_eq]
  constructor
  · intro h
    obtain ⟨done, rest, hdone, h⟩ := andThen_eq_ok.mp h
    cases h
    obtain ⟨ss, hss, rfl⟩ := statementsFrom_sound hdone
    simpa using hss
  · intro h
    rw [statements_complete h]
    simp

/-- The programs that are read from tokens are those that the greedy grammar derives from them, all
of them used, with at most `maxNesting` levels open at once. -/
theorem ofTokens_eq_ok_iff_derives (ts : List Token) (p : Program) :
    ofTokens ts = .ok p ↔ Prog True maxNesting ts p.statements :=
  ofTokensWithin_eq_ok_iff

end Program

end ExprFront
