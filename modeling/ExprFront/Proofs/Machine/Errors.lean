import ExprFront.Proofs.Machine.Simulation

/-!
What an error says about the input. An error at a token is final, and is reported as soon as no
input can begin with the tokens read; an error at the end of the input can be repaired, since every
state of the machine has tokens that complete it.
-/

namespace ExprFront.Machine

variable {limit : Nat} {done : List Statement}

/-! Blame. -/

/-- The token that is read before it is known what it begins. -/
def Stage.held : Stage → Option Token
  | .named t => t
  | .name t _ _ => t
  | _ => none

/-- A parenthesis and a sign open a level where a factor is due. -/
def Opens (t : Token) : Prop :=
  t.is .punctuation "(" ∨ t.kind = .operator ∧ ∃ op : UnaryOp, t.text = op.symbol

/-- The outcome of a step on a token or the end is about no other token: an error is found there,
and it is for the level only where that token opens one; only that token is held, as a name. -/
def Prompt (t? : Option Token) : Except ParseError State → Prop
  | .error x => x.found = t? ∧ (x.expected = .shallowerExpression → ∀ t ∈ t?, Opens t)
  | .ok s => ∀ t, s.stage.held = some t → t? = some t ∧ t.kind = .identifier

theorem prompt_of_held_eq_none {t? : Option Token} {stage : Stage} (h : stage.held = none) :
    Prompt t? (.ok ⟨done, stage⟩) := by
  intro t ht
  change stage.held = some t at ht
  rw [h] at ht
  cases ht

theorem prompt_of_expected {t? : Option Token} {expected : Expected}
    (h : expected ≠ .shallowerExpression) : Prompt t? (.error ⟨t?, expected⟩) :=
  ⟨rfl, fun hexpected => absurd hexpected h⟩

theorem enter_prompt {opener : Token} (hopens : Opens opener) (frames : List Frame)
    {stage : Stage} (h : stage.held = none) :
    Prompt opener (enter limit done opener frames stage) := by
  rw [enter]
  split
  · exact prompt_of_held_eq_none h
  · refine ⟨rfl, ?_⟩
    intro _ t ht
    cases ht
    exact hopens

theorem onFactor_prompt (frames : List Frame) (owner : Owner) (t? : Option Token) :
    Prompt t? (onFactor limit done frames owner t?) := by
  cases t? with
  | none => exact prompt_of_expected (by decide)
  | some t =>
      change Prompt t (step limit ⟨done, .factor frames owner⟩ (some t))
      rw [step_factor_some]
      cases hkind : t.kind with
      | integer => exact prompt_of_held_eq_none rfl
      | float => exact prompt_of_held_eq_none rfl
      | identifier =>
          intro u hu
          cases hu
          exact ⟨rfl, hkind⟩
      | operator =>
          cases hop : UnaryOp.ofSymbol? t.text with
          | none => exact prompt_of_expected (by decide)
          | some op =>
              have hsign := UnaryOp.ofSymbol?_eq_some_iff.mp hop
              exact enter_prompt (.inr ⟨hkind, op, hsign⟩) frames rfl
      | punctuation =>
          by_cases htext : t.text = "("
          · simp only [htext, if_true]
            exact enter_prompt (.inl (Token.is_iff.mpr ⟨hkind, htext⟩)) frames rfl
          · simp only [htext, if_false]
            exact prompt_of_expected (by decide)
      | keyword => exact prompt_of_expected (by decide)
      | string => exact prompt_of_expected (by decide)

theorem onStart_prompt (t? : Option Token) : Prompt t? (onStart limit done t?) := by
  cases t? with
  | none => exact prompt_of_held_eq_none rfl
  | some t =>
      rw [onStart]
      split
      · exact prompt_of_held_eq_none rfl
      · split
        · next hkind =>
            intro u hu
            cases hu
            exact ⟨rfl, hkind⟩
        · exact onFactor_prompt [] .expression t

theorem onBody_prompt (name : String) (params : List String) (body : List Statement)
    (t? : Option Token) : Prompt t? (onBody limit done name params body t?) := by
  rw [onBody]
  split
  · exact prompt_of_held_eq_none rfl
  · exact onStart_prompt t?

theorem onOwner_prompt (e : Expr) (owner : Owner) (t? : Option Token) :
    Prompt t? (onValue limit done e [] owner t?) := by
  cases owner with
  | returning name params body => exact onBody_prompt name params _ t?
  | expression => exact onStart_prompt t?
  | assignment target => exact onStart_prompt t?

theorem onValue_prompt (e : Expr) (frames : List Frame) (owner : Owner) (t? : Option Token) :
    Prompt t? (onValue limit done e frames owner t?) := by
  cases frames with
  | nil => exact onOwner_prompt e owner t?
  | cons frame frames =>
      cases frame with
      | left operand op => exact onOwner_prompt e owner t?
      | sign op => exact onOwner_prompt e owner t?
      | parens =>
          rw [onValue]
          split
          · exact prompt_of_held_eq_none rfl
          · exact prompt_of_expected (by decide)
      | argument function earlier =>
          rw [onValue]
          split
          · exact prompt_of_held_eq_none rfl
          · split
            · exact prompt_of_held_eq_none rfl
            · exact prompt_of_expected (by decide)

theorem onOperand_prompt (e : Expr) (frames : List Frame) (owner : Owner) (t? : Option Token) :
    Prompt t? (onOperand limit done e frames owner t?) := by
  rw [onOperand]
  cases t?.bind (Expr.operation? BinaryOp.products) with
  | some op => exact prompt_of_held_eq_none rfl
  | none =>
      cases t?.bind (Expr.operation? BinaryOp.sums) with
      | some op => exact prompt_of_held_eq_none rfl
      | none => exact onValue_prompt _ _ owner t?

theorem onParameter_prompt (name : String) (params : List String) (t? : Option Token) :
    Prompt t? (onParameter done name params t?) := by
  cases t? with
  | none => exact prompt_of_expected (by decide)
  | some t =>
      rw [onParameter]
      split
      · split
        · exact prompt_of_expected (by decide)
        · exact prompt_of_held_eq_none rfl
      · exact prompt_of_expected (by decide)

/-- The only error that is found at an earlier token: a name turns out to open a level, where none
is left. -/
def BlamesName (s : State) (t? : Option Token) (outcome : Except ParseError State) : Prop :=
  ∃ t, s.stage.held = some t ∧ t?.any (·.is .punctuation "(") ∧
    outcome = .error ⟨t, .shallowerExpression⟩

theorem onName_prompt (t : Token) (frames : List Frame) (owner : Owner) (t? : Option Token) :
    Prompt t? (onName limit done t frames owner t?) ∨
      t?.any (·.is .punctuation "(") ∧
        onName limit done t frames owner t? = .error ⟨t, .shallowerExpression⟩ := by
  rw [onName]
  by_cases hopen : t?.any (·.is .punctuation "(")
  · rw [if_pos hopen]
    by_cases hlevels : levels frames < limit
    · left
      rw [enter_of_lt hlevels]
      exact prompt_of_held_eq_none rfl
    · right
      exact ⟨hopen, if_neg hlevels⟩
  · left
    rw [if_neg hopen]
    exact onOperand_prompt _ frames owner t?

theorem step_prompt (limit : Nat) (s : State) (t? : Option Token) :
    Prompt t? (step limit s t?) ∨ BlamesName s t? (step limit s t?) := by
  obtain ⟨done, stage⟩ := s
  cases stage with
  | start => exact .inl (onStart_prompt t?)
  | named t =>
      rw [step_named]
      split
      · exact .inl (prompt_of_held_eq_none rfl)
      · rcases onName_prompt t [] .expression t? with h | h
        · exact .inl h
        · exact .inr ⟨t, rfl, h⟩
  | factor frames owner => exact .inl (onFactor_prompt frames owner t?)
  | name t frames owner =>
      rcases onName_prompt t frames owner t? with h | h
      · exact .inl h
      · exact .inr ⟨t, rfl, h⟩
  | opened function frames owner =>
      left
      rw [step_opened]
      split
      · exact prompt_of_held_eq_none rfl
      · exact onFactor_prompt _ owner t?
  | operand e frames owner => exact .inl (onOperand_prompt e frames owner t?)
  | functionName =>
      left
      cases t? with
      | none => exact prompt_of_expected (by decide)
      | some t =>
          rw [step_functionName_some]
          split
          · exact prompt_of_held_eq_none rfl
          · exact prompt_of_expected (by decide)
  | openParameters name =>
      left
      rw [step_openParameters]
      split
      · exact prompt_of_held_eq_none rfl
      · exact prompt_of_expected (by decide)
  | firstParameter name =>
      left
      rw [step_firstParameter]
      split
      · exact prompt_of_held_eq_none rfl
      · exact onParameter_prompt name [] t?
  | parameter name params => exact .inl (onParameter_prompt name params t?)
  | moreParameters name params =>
      left
      rw [step_moreParameters]
      split
      · exact prompt_of_held_eq_none rfl
      · split
        · exact prompt_of_held_eq_none rfl
        · exact prompt_of_expected (by decide)
  | colon name params =>
      left
      rw [step_colon]
      split
      · exact prompt_of_held_eq_none rfl
      · exact prompt_of_expected (by decide)
  | body name params body => exact .inl (onBody_prompt name params body t?)

/-! Runs that fail. -/

theorem step_none_found {s : State} {x : ParseError} (h : step limit s none = .error x) :
    x.found = none := by
  rcases step_prompt limit s none with hprompt | ⟨t, _, hopen, _⟩
  · rw [h] at hprompt
    exact hprompt.1
  · cases hopen

theorem step_some_found {s : State} {t : Token} {x : ParseError}
    (h : step limit s (some t) = .error x) : x.found = some t ∨ ∃ u, s.stage.held = some u ∧
      x.found = some u := by
  rcases step_prompt limit s (some t) with hprompt | ⟨u, hheld, _, herror⟩
  · rw [h] at hprompt
    exact .inl hprompt.1
  · rw [h] at herror
    cases herror
    exact .inr ⟨u, hheld, rfl⟩

theorem step_some_held {s s' : State} {t u : Token} (h : step limit s (some t) = .ok s')
    (hheld : s'.stage.held = some u) : u = t ∧ u.kind = .identifier := by
  rcases step_prompt limit s (some t) with hprompt | ⟨_, _, _, herror⟩
  · rw [h] at hprompt
    obtain ⟨ht, hkind⟩ := hprompt u hheld
    exact ⟨(Option.some.inj ht).symm, hkind⟩
  · rw [h] at herror
    cases herror

theorem run_nil_found {s : State} {x : ParseError} (h : run limit s [] = .error x) :
    x.found = none := by
  rw [run] at h
  cases hstep : step limit s none with
  | error y =>
      rw [hstep] at h
      cases h
      exact step_none_found hstep
  | ok s' =>
      rw [hstep] at h
      cases h

/-- An error at a token is final: it comes whatever follows. -/
theorem run_append_of_error {s : State} {ts : List Token} {x : ParseError} {t : Token}
    (h : run limit s ts = .error x) (hfound : x.found = some t) (us : List Token) :
    run limit s (ts ++ us) = .error x := by
  induction ts generalizing s with
  | nil =>
      rw [run_nil_found h] at hfound
      cases hfound
  | cons u ts ih =>
      rw [List.cons_append]
      cases hstep : step limit s (some u) with
      | error y =>
          rw [run_cons_of_error hstep] at h ⊢
          exact h
      | ok s' =>
          rw [run_cons_of_ok hstep] at h ⊢
          exact ih h

/-- The input is not refused before its end. -/
def Viable (limit : Nat) (s : State) (ts : List Token) : Prop :=
  ∀ x, run limit s ts = .error x → x.found = none

theorem viable_nil (s : State) : Viable limit s [] :=
  fun _ h => run_nil_found h

theorem viable_cons {s s' : State} {t : Token} {ts : List Token}
    (hstep : step limit s (some t) = .ok s') (h : Viable limit s' ts) :
    Viable limit s (t :: ts) := by
  intro x hx
  rw [run_cons_of_ok hstep] at hx
  exact h x hx

/-- An error at a token comes no later than it must: the tokens before the one that is found are
no reason to refuse the input. -/
theorem run_error_found {s : State} {ts : List Token} {x : ParseError} {t : Token}
    (h : run limit s ts = .error x) (hfound : x.found = some t) :
    s.stage.held = some t ∨ ∃ i, ts[i]? = some t ∧ ∀ k ≤ i, Viable limit s (ts.take k) := by
  induction ts generalizing s with
  | nil =>
      rw [run_nil_found h] at hfound
      cases hfound
  | cons u ts ih =>
      have hfirst : u = t → ∃ i, (u :: ts)[i]? = some t ∧
          ∀ k ≤ i, Viable limit s ((u :: ts).take k) := by
        intro hu
        refine ⟨0, congrArg some hu, ?_⟩
        intro k hk
        rw [Nat.le_zero.mp hk]
        exact viable_nil s
      cases hstep : step limit s (some u) with
      | error y =>
          rw [run_cons_of_error hstep] at h
          cases h
          rcases step_some_found hstep with hu | ⟨v, hheld, hv⟩
          · right
            apply hfirst
            rw [hu] at hfound
            exact Option.some.inj hfound
          · left
            rw [hheld, ← hv, hfound]
      | ok s' =>
          rw [run_cons_of_ok hstep] at h
          right
          rcases ih h with hheld | ⟨i, hi, hviable⟩
          · exact hfirst (step_some_held hstep hheld).1.symm
          · refine ⟨i + 1, hi, ?_⟩
            intro k hk
            cases k with
            | zero => exact viable_nil s
            | succ k =>
                rw [List.take_succ_cons]
                exact viable_cons hstep (hviable k (by omega))

/-! Repair. -/

/-- Tokens that complete what a state leaves due. -/
def Completable (limit : Nat) (s : State) : Prop :=
  ∃ us p, run limit s us = .ok p

theorem Completable.of_step {s s' : State} {t : Token} (hstep : step limit s (some t) = .ok s')
    (h : Completable limit s') : Completable limit s := by
  obtain ⟨us, p, hrun⟩ := h
  refine ⟨t :: us, p, ?_⟩
  rw [run_cons_of_ok hstep, hrun]

/-- A token as an editor would put it in, at no place in particular. -/
def inserted (kind : Token.Kind) (text : String) : Token :=
  ⟨kind, text, .start⟩

/-- Closes the brackets that frames hold open. -/
def closing : List Frame → List Token
  | [] => []
  | .left _ _ :: frames => closing frames
  | .sign _ :: frames => closing frames
  | .parens :: frames => inserted .punctuation ")" :: closing frames
  | .argument _ _ :: frames => inserted .punctuation ")" :: closing frames

theorem closing_head? (frames : List Frame) :
    (closing frames).head? = none ∨ (closing frames).head? = some (inserted .punctuation ")") := by
  induction frames with
  | nil => exact .inl rfl
  | cons frame frames ih =>
      cases frame with
      | left operand op => exact ih
      | sign op => exact ih
      | parens => exact .inr rfl
      | argument function earlier => exact .inr rfl

theorem closing_ended (frames : List Frame) : Ended (closing frames) := by
  rw [Ended]
  rcases closing_head? frames with h | h
  · rw [h]
    exact ⟨rfl, rfl⟩
  · rw [h]
    exact ⟨rfl, rfl⟩

theorem closing_not_open (frames : List Frame) :
    ¬ (closing frames).head?.any (·.is .punctuation "(") := by
  rcases closing_head? frames with h | h
  · simp [h]
  · simp [h, inserted, Token.is]

theorem run_closing (limit : Nat) (done : List Statement) (e : Expr) (frames : List Frame)
    (owner : Owner) :
    ∃ p, run limit ⟨done, .operand e frames owner⟩ (closing frames) = .ok p := by
  induction frames generalizing e with
  | nil =>
      cases owner with
      | expression => exact ⟨_, rfl⟩
      | assignment target => exact ⟨_, rfl⟩
      | returning name params body => exact ⟨_, rfl⟩
  | cons frame frames ih =>
      cases frame with
      | left operand op =>
          obtain ⟨p, hp⟩ := ih (.binary op operand e)
          refine ⟨p, ?_⟩
          rw [closing, ← hp]
          exact run_congr (step_operand_left_of_not_product (closing_ended frames).1 op operand)
      | sign op =>
          obtain ⟨p, hp⟩ := ih (.unary op e)
          refine ⟨p, ?_⟩
          rw [closing, run_operand_sign, hp]
      | parens =>
          obtain ⟨p, hp⟩ := ih e
          refine ⟨p, ?_⟩
          have hstep := step_operand_parens limit done frames owner e
            (closing_ended (.parens :: frames))
          rw [closing, run_cons_of_ok hstep, hp]
      | argument function earlier =>
          obtain ⟨p, hp⟩ := ih (.call function (e :: earlier).reverse)
          refine ⟨p, ?_⟩
          have hstep := step_operand_argument limit done frames owner e
            (closing_ended (.argument function earlier :: frames)) function earlier
          rw [closing, run_cons_of_ok hstep, hp]

theorem completable_operand (e : Expr) (frames : List Frame) (owner : Owner) :
    Completable limit ⟨done, .operand e frames owner⟩ :=
  ⟨closing frames, run_closing limit done e frames owner⟩

theorem completable_factor (frames : List Frame) (owner : Owner) :
    Completable limit ⟨done, .factor frames owner⟩ :=
  .of_step (step_factor_some limit done (inserted .integer "0") frames owner)
    (completable_operand _ frames owner)

theorem completable_name (t : Token) (frames : List Frame) (owner : Owner) :
    Completable limit ⟨done, .name t frames owner⟩ := by
  obtain ⟨p, hp⟩ := run_closing limit done (.var t.text) frames owner
  refine ⟨closing frames, p, ?_⟩
  have hstep := step_name limit done t frames owner (closing frames).head?
  rw [run_congr (hstep.trans (if_neg (closing_not_open frames))), hp]

theorem completable_colon (name : String) (params : List String) :
    Completable limit ⟨done, .colon name params⟩ :=
  .of_step (step_colon limit done name params (inserted .punctuation ":")) ⟨[], _, rfl⟩

theorem completable_moreParameters (name : String) (params : List String) :
    Completable limit ⟨done, .moreParameters name params⟩ :=
  .of_step (step_moreParameters limit done name params (inserted .punctuation ")"))
    (completable_colon name params)

theorem exists_length_lt (names : List String) : ∃ n, ∀ name ∈ names, name.length < n := by
  induction names with
  | nil => exact ⟨0, fun _ h => nomatch h⟩
  | cons first names ih =>
      obtain ⟨n, hn⟩ := ih
      refine ⟨first.length + 1 + n, ?_⟩
      intro name hmem
      rcases List.mem_cons.mp hmem with rfl | hmem
      · omega
      · have := hn name hmem
        omega

theorem exists_fresh (names : List String) : ∃ name, name ∉ names := by
  obtain ⟨n, hn⟩ := exists_length_lt names
  refine ⟨String.ofList (List.replicate n 'x'), ?_⟩
  intro hmem
  have hlength := hn _ hmem
  simp at hlength

theorem completable_parameter (name : String) (params : List String) :
    Completable limit ⟨done, .parameter name params⟩ := by
  obtain ⟨param, hfresh⟩ := exists_fresh params
  have hstep := step_parameter_some limit done name params (inserted .identifier param)
  exact .of_step (hstep.trans (if_neg hfresh)) (completable_moreParameters name (param :: params))

theorem completable_firstParameter (name : String) :
    Completable limit ⟨done, .firstParameter name⟩ :=
  .of_step (step_firstParameter limit done name (inserted .punctuation ")"))
    (completable_colon name [])

theorem completable_openParameters (name : String) :
    Completable limit ⟨done, .openParameters name⟩ :=
  .of_step (step_openParameters limit done name (inserted .punctuation "("))
    (completable_firstParameter name)

/-- No state is a dead end. -/
theorem completable (s : State) : Completable limit s := by
  obtain ⟨done, stage⟩ := s
  cases stage with
  | start => exact ⟨[], _, rfl⟩
  | named t => exact ⟨[], _, rfl⟩
  | factor frames owner => exact completable_factor frames owner
  | name t frames owner => exact completable_name t frames owner
  | opened function frames owner =>
      exact .of_step (step_opened limit done function frames owner (inserted .punctuation ")"))
        (completable_operand _ frames owner)
  | operand e frames owner => exact completable_operand e frames owner
  | functionName =>
      exact .of_step (step_functionName_some limit done (inserted .identifier "f"))
        (completable_openParameters "f")
  | openParameters name => exact completable_openParameters name
  | firstParameter name => exact completable_firstParameter name
  | parameter name params => exact completable_parameter name params
  | moreParameters name params => exact completable_moreParameters name params
  | colon name params => exact completable_colon name params
  | body name params body => exact ⟨[], _, rfl⟩

theorem run_error_repairable {s : State} {ts : List Token} {x : ParseError}
    (h : run limit s ts = .error x) (hfound : x.found = none) :
    ∃ us p, run limit s (ts ++ us) = .ok p := by
  induction ts generalizing s with
  | nil => exact completable s
  | cons t ts ih =>
      cases hstep : step limit s (some t) with
      | error y =>
          rw [run_cons_of_error hstep] at h
          cases h
          rcases step_some_found hstep with hsome | ⟨u, _, hsome⟩
          · rw [hfound] at hsome
            cases hsome
          · rw [hfound] at hsome
            cases hsome
      | ok s' =>
          rw [run_cons_of_ok hstep] at h
          obtain ⟨us, p, hp⟩ := ih h
          refine ⟨us, p, ?_⟩
          rw [List.cons_append, run_cons_of_ok hstep, hp]

end ExprFront.Machine

namespace ExprFront.Program

open Machine

/-- An error at a token is final and comes as early as can be: the tokens up to that one are
refused by none of their beginnings, and no tokens after the input change the error. An error at
the end of the input is gone after some further tokens. -/
theorem ofTokens_error_final_or_repairable (ts : List Token) :
    (∀ t expected, ofTokens ts = .error ⟨some t, expected⟩ →
      (∃ i, ts[i]? = some t ∧ ∀ k ≤ i, (∃ p, ofTokens (ts.take k) = .ok p) ∨
        ∃ expected, ofTokens (ts.take k) = .error ⟨none, expected⟩) ∧
      ∀ us, ofTokens (ts ++ us) = .error ⟨some t, expected⟩) ∧
    ∀ expected, ofTokens ts = .error ⟨none, expected⟩ → ∃ us p, ofTokens (ts ++ us) = .ok p := by
  have hrun : ∀ ts, ofTokens ts = run maxNesting ⟨[], .start⟩ ts :=
    ofTokensWithin_eq_run maxNesting
  simp only [hrun]
  constructor
  · intro t expected h
    constructor
    · rcases run_error_found h rfl with hheld | ⟨i, hi, hviable⟩
      · cases hheld
      · refine ⟨i, hi, ?_⟩
        intro k hk
        have hk := hviable k hk
        cases hprefix : run maxNesting ⟨[], .start⟩ (ts.take k) with
        | ok p => exact .inl ⟨p, rfl⟩
        | error x =>
            obtain ⟨found, expected⟩ := x
            cases hk _ hprefix
            exact .inr ⟨expected, rfl⟩
    · intro us
      exact run_append_of_error h rfl us
  · intro expected h
    exact run_error_repairable h rfl

/-- `def f(x, x` repeats a parameter, and `f(-` leaves a call and a sign open. -/
def repeatedParameter : List Token :=
  [inserted .keyword "def", inserted .identifier "f", inserted .punctuation "(",
    inserted .identifier "x", inserted .punctuation ",", inserted .identifier "x"]

def openCall : List Token :=
  [inserted .identifier "f", inserted .punctuation "(", inserted .operator "-"]

theorem repeatedParameter_final_and_openCall_repairable :
    ofTokens repeatedParameter = .error ⟨inserted .identifier "x", .freshParameterName⟩ ∧
      (∀ us, ofTokens (repeatedParameter ++ us) =
        .error ⟨inserted .identifier "x", .freshParameterName⟩) ∧
      ofTokens openCall = .error ⟨none, .expression⟩ ∧
      ∃ us p, ofTokens (openCall ++ us) = .ok p := by
  have hrepeated : ofTokens repeatedParameter =
      .error ⟨inserted .identifier "x", .freshParameterName⟩ := by
    rw [ofTokens, ofTokensWithin_eq_run]
    rfl
  have hopen : ofTokens openCall = .error ⟨none, .expression⟩ := by
    rw [ofTokens, ofTokensWithin_eq_run]
    rfl
  have hfinal := ((ofTokens_error_final_or_repairable repeatedParameter).1 _ _ hrepeated).2
  have hrepairable := (ofTokens_error_final_or_repairable openCall).2 _ hopen
  exact ⟨hrepeated, hfinal, hopen, hrepairable⟩

end ExprFront.Program
