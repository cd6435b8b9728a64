import ExprFront.Proofs.Grammar.Complete
import ExprFront.Proofs.Spelling
import ExprFront.Proofs.Trivia

/-!
What a derivation keeps of its tokens. The tree is spelled with the very tokens it was read from,
but for the parentheses, and its names and numbers are texts of their tokens. So reading a source
and writing it out again changes nothing but parentheses.
-/

namespace ExprFront

open Token

/-- What is left of a spelling without its parentheses. -/
def bare (keys : List Key) : List Key :=
  keys.filter fun k => k ≠ (.punctuation, "(") ∧ k ≠ (.punctuation, ")")

@[simp] theorem bare_nil : bare [] = [] := rfl

@[simp] theorem bare_append (keys more : List Key) : bare (keys ++ more) = bare keys ++ bare more :=
  List.filter_append keys more

@[simp] theorem bare_open (keys : List Key) : bare ((.punctuation, "(") :: keys) = bare keys := rfl

@[simp] theorem bare_close (keys : List Key) : bare ((.punctuation, ")") :: keys) = bare keys := rfl

@[simp] theorem bare_cons {k : Key} (hopen : k ≠ (.punctuation, "("))
    (hclose : k ≠ (.punctuation, ")")) (keys : List Key) : bare (k :: keys) = k :: bare keys := by
  apply List.filter_cons_of_pos
  simp [hopen, hclose]

namespace Grammar

variable {greedy : Prop}

theorem Sign.key_eq {op : BinaryOp} {t : Token} (h : Sign op t) :
    t.key = (.operator, op.symbol) := by
  rw [key, h.1, h.2]

/-- The spelling of what follows a first operand, without parentheses. -/
def bareOthers (others : List (BinaryOp × Expr)) : List Key :=
  others.flatMap fun other => (.operator, other.1.symbol) :: bare other.2.spelling

theorem bare_spelling_joined (first : Expr) (others : List (BinaryOp × Expr)) :
    bare (joined first others).spelling = bare first.spelling ++ bareOthers others := by
  induction others generalizing first with
  | nil => simp [bareOthers]
  | cons other others ih =>
      obtain ⟨op, e⟩ := other
      rw [joined_cons, ih]
      simp [Expr.spelling, bareOthers]

mutual

theorem Factor.bare_eq : ∀ {n ts e rest}, Factor greedy n ts e rest →
    bare (ts.map key) = bare e.spelling ++ bare (rest.map key)
  | _, _, _, _, .integer hkind => by
      rw [List.map_cons, key_of_kind hkind]
      simp [Expr.spelling, Expr.numberKind]
  | _, _, _, _, .float hkind => by
      rw [List.map_cons, key_of_kind hkind]
      simp [Expr.spelling, Expr.numberKind]
  | _, _, _, _, .var hkind _ => by
      rw [List.map_cons, key_of_kind hkind]
      simp [Expr.spelling]
  | _, _, _, _, .call hkind hu hes hv => by
      have hargs := Arguments.bare_eq hes
      rw [List.map_cons, key_of_is hv, bare_close] at hargs
      rw [List.map_cons, List.map_cons, key_of_kind hkind, key_of_is hu]
      simp [Expr.spelling, hargs]
  | _, _, _, _, .unary hkind htext he => by
      rw [List.map_cons, key_of_kind hkind, htext]
      simp [Expr.spelling, Factor.bare_eq he]
  | _, _, _, _, .parens ht he hv => by
      have hinner := Expression.bare_eq he
      rw [List.map_cons, key_of_is hv, bare_close] at hinner
      rw [List.map_cons, key_of_is ht, bare_open, hinner]

theorem Products.bare_eq : ∀ {n ts others rest}, Products greedy n ts others rest →
    bare (ts.map key) = bareOthers others ++ bare (rest.map key)
  | _, _, _, _, .nil _ => rfl
  | _, _, _, _, .cons _ hsign he hothers => by
      rw [List.map_cons, hsign.key_eq]
      simp [bareOthers, Factor.bare_eq he, Products.bare_eq hothers]

theorem Term.bare_eq : ∀ {n ts e rest}, Term greedy n ts e rest →
    bare (ts.map key) = bare e.spelling ++ bare (rest.map key)
  | _, _, _, _, .mk hfirst hothers => by
      rw [Factor.bare_eq hfirst, Products.bare_eq hothers, bare_spelling_joined,
        List.append_assoc]

theorem Sums.bare_eq : ∀ {n ts others rest}, Sums greedy n ts others rest →
    bare (ts.map key) = bareOthers others ++ bare (rest.map key)
  | _, _, _, _, .nil _ => rfl
  | _, _, _, _, .cons _ hsign he hothers => by
      rw [List.map_cons, hsign.key_eq]
      simp [bareOthers, Term.bare_eq he, Sums.bare_eq hothers]

theorem Expression.bare_eq : ∀ {n ts e rest}, Expression greedy n ts e rest →
    bare (ts.map key) = bare e.spelling ++ bare (rest.map key)
  | _, _, _, _, .mk hfirst hothers => by
      rw [Term.bare_eq hfirst, Sums.bare_eq hothers, bare_spelling_joined, List.append_assoc]

theorem Arguments.bare_eq : ∀ {n ts es rest}, Arguments greedy n ts es rest →
    bare (ts.map key) = bare (Expr.spellingList es) ++ bare (rest.map key)
  | _, _, _, _, .none => rfl
  | _, _, _, _, .some he hes => by
      rw [Expression.bare_eq he, MoreArguments.bare_eq hes, Expr.spellingList, bare_append,
        List.append_assoc]

theorem MoreArguments.bare_eq : ∀ {n ts es rest}, MoreArguments greedy n ts es rest →
    bare (ts.map key) = bare (Expr.spellingMore es) ++ bare (rest.map key)
  | _, _, _, _, .nil => rfl
  | _, _, _, _, .cons ht he hes => by
      rw [List.map_cons, key_of_is ht]
      simp [Expr.spellingMore, Expression.bare_eq he, MoreArguments.bare_eq hes]

end

theorem MoreParameters.bare_eq {ts rest : List Token} {names : List String}
    (h : MoreParameters ts names rest) :
    bare (ts.map key) = bare (spellingMoreNames names) ++ bare (rest.map key) := by
  induction h with
  | nil => rfl
  | cons ht hkind _ ih =>
      rw [List.map_cons, List.map_cons, key_of_is ht, key_of_kind hkind]
      simp [spellingMoreNames, ih]

theorem Parameters.bare_eq {ts rest : List Token} {names : List String}
    (h : Parameters ts names rest) :
    bare (ts.map key) = bare (spellingNames names) ++ bare (rest.map key) := by
  cases h with
  | none => rfl
  | some hkind hmore =>
      rw [List.map_cons, key_of_kind hkind]
      simp [spellingNames, hmore.bare_eq]

theorem Returns.bare_eq {n : Nat} {ts rest : List Token} {body : List Statement}
    (h : Returns greedy n ts body rest) :
    bare (ts.map key) = bare (Statement.spellingList body) ++ bare (rest.map key) := by
  induction h with
  | nil _ => rfl
  | cons ht he _ ih =>
      rw [List.map_cons, key_of_is ht]
      simp [Statement.spellingList, Statement.spelling, he.bare_eq, ih]

theorem Stmt.bare_eq {n : Nat} {ts rest : List Token} {s : Statement}
    (h : Stmt greedy n ts s rest) :
    bare (ts.map key) = bare s.spelling ++ bare (rest.map key) := by
  cases h with
  | definition ht hname hu hparams _ hv hw hbody =>
      have hrest := hparams.bare_eq
      rw [List.map_cons, List.map_cons, key_of_is hv, key_of_is hw] at hrest
      rw [List.map_cons, List.map_cons, List.map_cons, key_of_is ht, key_of_kind hname,
        key_of_is hu]
      simp [Statement.spelling, hrest, hbody.bare_eq]
  | assignment hkind ht he =>
      rw [List.map_cons, List.map_cons, key_of_kind hkind, key_of_is ht]
      simp [Statement.spelling, he.bare_eq]
  | expression _ he => exact he.bare_eq

/-- A derivation accounts for each of its tokens, in order, but for the parentheses. -/
theorem Prog.bare_eq {n : Nat} {ts : List Token} {ss : List Statement} (h : Prog greedy n ts ss) :
    bare (ts.map key) = bare (Statement.spellingList ss) := by
  induction h with
  | nil => rfl
  | cons hs _ ih =>
      rw [hs.bare_eq, ih, Statement.spellingList, bare_append]

/-! Texts. -/

def Lexical (ts : List Token) : Prop :=
  ∀ t ∈ ts, t.kind.Admits t.text

theorem Lexical.head {t : Token} {ts : List Token} (h : Lexical (t :: ts)) {kind : Token.Kind}
    (hkind : t.kind = kind) : kind.Admits t.text := by
  rw [← hkind]
  exact h t List.mem_cons_self

theorem Lexical.tail {t : Token} {ts : List Token} (h : Lexical (t :: ts)) : Lexical ts :=
  fun u hu => h u (List.mem_cons_of_mem t hu)

def SpelledOthers (others : List (BinaryOp × Expr)) : Prop :=
  ∀ other ∈ others, other.2.Spelled

theorem spelled_joined {first : Expr} {others : List (BinaryOp × Expr)} (hfirst : first.Spelled)
    (hothers : SpelledOthers others) : (joined first others).Spelled := by
  induction others generalizing first with
  | nil => exact hfirst
  | cons other others ih =>
      apply ih
      · exact ⟨hfirst, hothers other List.mem_cons_self⟩
      · intro next hnext
        exact hothers next (List.mem_cons_of_mem other hnext)

mutual

theorem Factor.spelled : ∀ {n ts e rest}, Factor greedy n ts e rest → Lexical ts →
    e.Spelled ∧ Lexical rest
  | _, _, _, _, .integer hkind, h => ⟨h.head hkind, h.tail⟩
  | _, _, _, _, .float hkind, h => ⟨h.head hkind, h.tail⟩
  | _, _, _, _, .var hkind _, h => ⟨h.head hkind, h.tail⟩
  | _, _, _, _, .call hkind _ hes _, h =>
      have ⟨hargs, hrest⟩ := Arguments.spelled hes h.tail.tail
      ⟨⟨h.head hkind, hargs⟩, hrest.tail⟩
  | _, _, _, _, .unary _ _ he, h =>
      have ⟨hoperand, hrest⟩ := Factor.spelled he h.tail
      ⟨hoperand, hrest⟩
  | _, _, _, _, .parens _ he _, h =>
      have ⟨hinner, hrest⟩ := Expression.spelled he h.tail
      ⟨hinner, hrest.tail⟩

theorem Products.spelled : ∀ {n ts others rest}, Products greedy n ts others rest →
    Lexical ts → SpelledOthers others ∧ Lexical rest
  | _, _, _, _, .nil _, h => ⟨nofun, h⟩
  | _, _, _, _, .cons _ _ he hothers, h =>
      have ⟨hfirst, hmid⟩ := Factor.spelled he h.tail
      have ⟨hmore, hrest⟩ := Products.spelled hothers hmid
      ⟨List.forall_mem_cons.mpr ⟨hfirst, hmore⟩, hrest⟩

theorem Term.spelled : ∀ {n ts e rest}, Term greedy n ts e rest → Lexical ts →
    e.Spelled ∧ Lexical rest
  | _, _, _, _, .mk hfirst hothers, h =>
      have ⟨hfirst, hmid⟩ := Factor.spelled hfirst h
      have ⟨hmore, hrest⟩ := Products.spelled hothers hmid
      ⟨spelled_joined hfirst hmore, hrest⟩

theorem Sums.spelled : ∀ {n ts others rest}, Sums greedy n ts others rest → Lexical ts →
    SpelledOthers others ∧ Lexical rest
  | _, _, _, _, .nil _, h => ⟨nofun, h⟩
  | _, _, _, _, .cons _ _ he hothers, h =>
      have ⟨hfirst, hmid⟩ := Term.spelled he h.tail
      have ⟨hmore, hrest⟩ := Sums.spelled hothers hmid
      ⟨List.forall_mem_cons.mpr ⟨hfirst, hmore⟩, hrest⟩

theorem Expression.spelled : ∀ {n ts e rest}, Expression greedy n ts e rest → Lexical ts →
    e.Spelled ∧ Lexical rest
  | _, _, _, _, .mk hfirst hothers, h =>
      have ⟨hfirst, hmid⟩ := Term.spelled hfirst h
      have ⟨hmore, hrest⟩ := Sums.spelled hothers hmid
      ⟨spelled_joined hfirst hmore, hrest⟩

theorem Arguments.spelled : ∀ {n ts es rest}, Arguments greedy n ts es rest → Lexical ts →
    Expr.SpelledList es ∧ Lexical rest
  | _, _, _, _, .none, h => ⟨trivial, h⟩
  | _, _, _, _, .some he hes, h =>
      have ⟨hfirst, hmid⟩ := Expression.spelled he h
      have ⟨hmore, hrest⟩ := MoreArguments.spelled hes hmid
      ⟨⟨hfirst, hmore⟩, hrest⟩

theorem MoreArguments.spelled : ∀ {n ts es rest}, MoreArguments greedy n ts es rest →
    Lexical ts → Expr.SpelledList es ∧ Lexical rest
  | _, _, _, _, .nil, h => ⟨trivial, h⟩
  | _, _, _, _, .cons _ he hes, h =>
      have ⟨hfirst, hmid⟩ := Expression.spelled he h.tail
      have ⟨hmore, hrest⟩ := MoreArguments.spelled hes hmid
      ⟨⟨hfirst, hmore⟩, hrest⟩

end

theorem MoreParameters.spelled {ts rest : List Token} {names : List String}
    (h : MoreParameters ts names rest) (hts : Lexical ts) :
    (∀ name ∈ names, Token.Kind.identifier.Admits name) ∧ Lexical rest := by
  induction h with
  | nil => exact ⟨nofun, hts⟩
  | cons _ hkind _ ih =>
      obtain ⟨hmore, hrest⟩ := ih hts.tail.tail
      exact ⟨List.forall_mem_cons.mpr ⟨hts.tail.head hkind, hmore⟩, hrest⟩

theorem Parameters.spelled {ts rest : List Token} {names : List String}
    (h : Parameters ts names rest) (hts : Lexical ts) :
    (∀ name ∈ names, Token.Kind.identifier.Admits name) ∧ Lexical rest := by
  cases h with
  | none => exact ⟨nofun, hts⟩
  | some hkind hmore =>
      obtain ⟨hmore, hrest⟩ := hmore.spelled hts.tail
      exact ⟨List.forall_mem_cons.mpr ⟨hts.head hkind, hmore⟩, hrest⟩

theorem Returns.spelled {n : Nat} {ts rest : List Token} {body : List Statement}
    (h : Returns greedy n ts body rest) (hts : Lexical ts) :
    Statement.SpelledList body ∧ Lexical rest := by
  induction h with
  | nil _ => exact ⟨trivial, hts⟩
  | cons _ he _ ih =>
      obtain ⟨hvalue, hmid⟩ := he.spelled hts.tail
      obtain ⟨hmore, hrest⟩ := ih hmid
      exact ⟨⟨hvalue, hmore⟩, hrest⟩

theorem Stmt.spelled {n : Nat} {ts rest : List Token} {s : Statement}
    (h : Stmt greedy n ts s rest) (hts : Lexical ts) : s.Spelled ∧ Lexical rest := by
  cases h with
  | definition _ hname _ hparams _ _ _ hbody =>
      obtain ⟨hnames, hmid⟩ := hparams.spelled hts.tail.tail.tail
      obtain ⟨hreturns, hrest⟩ := hbody.spelled hmid.tail.tail
      exact ⟨⟨hts.tail.head hname, hnames, hreturns⟩, hrest⟩
  | assignment hkind _ he =>
      obtain ⟨hvalue, hrest⟩ := he.spelled hts.tail.tail
      exact ⟨⟨hts.head hkind, hvalue⟩, hrest⟩
  | expression _ he => exact he.spelled hts

/-- Names and numbers are texts of tokens, if the tokens' texts are. -/
theorem Prog.spelled {n : Nat} {ts : List Token} {ss : List Statement} (h : Prog greedy n ts ss)
    (hts : Lexical ts) : Statement.SpelledList ss := by
  induction h with
  | nil => exact trivial
  | cons hs _ ih =>
      obtain ⟨hfirst, hmid⟩ := hs.spelled hts
      exact ⟨hfirst, ih hmid⟩

end Grammar

namespace Program

theorem ofSource_of_tokens {source : String} {ts : List Token}
    (h : Token.ofSource source = .ok ts) : ofSource source = (ofTokens ts).mapError .parse := by
  rw [ofSource, h]
  rfl

theorem ofSource_eq_ok_iff {source : String} {p : Program} :
    ofSource source = .ok p ↔ ∃ ts, Token.ofSource source = .ok ts ∧ ofTokens ts = .ok p := by
  constructor
  · intro h
    cases hts : Token.ofSource source with
    | error e =>
        rw [ofSource, hts] at h
        cases h
    | ok ts =>
        rw [ofSource_of_tokens hts] at h
        cases hp : ofTokens ts with
        | error e =>
            rw [hp] at h
            cases h
        | ok q =>
            rw [hp] at h
            cases h
            exact ⟨ts, rfl, hp⟩
  · intro htokens
    obtain ⟨ts, hts, hp⟩ := htokens
    rw [ofSource_of_tokens hts, hp]
    rfl

theorem spelled_of_ofTokens {ts : List Token} {p : Program} (h : ofTokens ts = .ok p)
    (hts : Grammar.Lexical ts) : Statement.SpelledList p.statements :=
  (ofTokensWithin_eq_ok_iff.mp h).spelled hts

/-- Reading a source and writing its program out changes nothing but parentheses: the written form
is scanned to the end, and has the tokens of the source in the same order. -/
theorem ofSource_render_bare {source : String} {p : Program} (h : ofSource source = .ok p) :
    ∃ ts us, Token.ofSource source = .ok ts ∧ Token.ofSource p.render = .ok us ∧
      bare (us.map Token.key) = bare (ts.map Token.key) := by
  obtain ⟨ts, hts, hp⟩ := ofSource_eq_ok_iff.mp h
  have hlexical : Grammar.Lexical ts := Token.admits_of_listFrom hts
  obtain ⟨us, hus, hkeys⟩ := lexes_render (spelled_of_ofTokens hp hlexical) .start
  refine ⟨ts, us, hts, hus, ?_⟩
  rw [hkeys, (ofTokensWithin_eq_ok_iff.mp hp).bare_eq]

/-- The written form of `((x)) * -f(1)` is `(x * (-f(1)))`. -/
theorem ofSource_render_bare_redundant_parentheses :
    let e : Expr := .binary .multiply (.var "x") (.unary .minus (.call "f" [.number "1" false]))
    ofSource "((x)) * -f(1)" = .ok ⟨[.expression e]⟩ ∧
      ∃ ts us, Token.ofSource "((x)) * -f(1)" = .ok ts ∧
        Token.ofSource (Program.render ⟨[.expression e]⟩) = .ok us ∧
        bare (us.map Token.key) = bare (ts.map Token.key) := by
  intro e
  have h : ofSource "((x)) * -f(1)" = .ok ⟨[.expression e]⟩ := by decide +kernel
  exact ⟨h, ofSource_render_bare h⟩

end Program

end ExprFront
