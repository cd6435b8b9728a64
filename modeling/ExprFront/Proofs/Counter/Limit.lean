import ExprFront.Proofs.Counter.Descent
import ExprFront.Proofs.Machine.Errors

/-!
The limit makes one difference. A reading without it is compared with the same reading under it:
where no level goes past the limit the two are the same in all they do, and else the second fails
at the token that opens the first such level. What comes after that token has no say in it.
-/

namespace ExprFront.Counted

variable {α β : Type} {n : Nat}

/-- The first of the levels that is not within a limit. -/
def firstPast (n : Nat) (opened : List Opening) : Option Opening :=
  opened.find? (n < ·.level)

theorem firstPast_append_eq_some {opened : List Opening} {o : Opening}
    (h : firstPast n opened = some o) (later : List Opening) :
    firstPast n (opened ++ later) = some o := by
  rw [firstPast, List.find?_append, ← firstPast, h]
  rfl

theorem firstPast_append_eq_none {opened later : List Opening}
    (h : firstPast n (opened ++ later) = none) : firstPast n opened = none := by
  rw [firstPast, List.find?_append, Option.or_eq_none_iff] at h
  exact h.1

theorem firstPast_append_singleton {opened : List Opening} (h : firstPast n opened = none)
    (o : Opening) : firstPast n (opened ++ [o]) = if n < o.level then some o else none := by
  rw [firstPast, List.find?_append, ← firstPast, h, Option.none_or, List.find?_singleton]
  simp only [decide_eq_true_eq]

/-- A reading under a limit, compared with a reading that is free of it. -/
structure Limits (n : Nat) (free limited : Counted α) : Prop where
  kept : ∀ c, (free c).2.depth = c.depth
  grows : ∀ c, c.opened <+: (free c).2.opened
  same : ∀ c, firstPast n (free c).2.opened = none → limited c = free c
  refused : ∀ c o, c.depth ≤ n → firstPast n c.opened = none →
    firstPast n (free c).2.opened = some o →
    o.level = n + 1 ∧ (limited c).1 = .error ⟨o.opener, .shallowerExpression⟩

/-- A reading that opens no level is not changed by the limit. -/
theorem Limits.refl {q : Counted α} (hkept : ∀ c, (q c).2.depth = c.depth)
    (hopened : ∀ c, (q c).2.opened = c.opened) : Limits n q q where
  kept := hkept
  grows c := ⟨[], by rw [hopened, List.append_nil]⟩
  same _ _ := rfl
  refused c o _ hnone hsome := by
    rw [hopened, hnone] at hsome
    cases hsome

theorem Limits.pure (a : α) : Limits n (Pure.pure a) (Pure.pure a) :=
  .refl (fun _ => rfl) fun _ => rfl

theorem Limits.ofPhrase (p : Phrase α) : Limits n (ofPhrase p) (ofPhrase p) := by
  apply Limits.refl
  · intro c
    simp only [Counted.ofPhrase]
    cases p.read c.ahead with
    | error e => rfl
    | ok r => rfl
  · intro c
    simp only [Counted.ofPhrase]
    cases p.read c.ahead with
    | error e => rfl
    | ok r => rfl

/-- Which readings are compared may depend on the cursor. -/
theorem Limits.of_at {free limited : Counted α}
    (h : ∀ c, ∃ q q', Limits n q q' ∧ free c = q c ∧ limited c = q' c) :
    Limits n free limited := by
  refine ⟨?_, ?_, ?_, ?_⟩
  · intro c
    obtain ⟨q, q', hlimits, hfree, _⟩ := h c
    rw [hfree]
    exact hlimits.kept c
  · intro c
    obtain ⟨q, q', hlimits, hfree, _⟩ := h c
    rw [hfree]
    exact hlimits.grows c
  · intro c
    obtain ⟨q, q', hlimits, hfree, hlimited⟩ := h c
    rw [hfree, hlimited]
    exact hlimits.same c
  · intro c
    obtain ⟨q, q', hlimits, hfree, hlimited⟩ := h c
    rw [hfree, hlimited]
    exact hlimits.refused c

theorem Limits.bind {free limited : Counted α} {next next' : α → Counted β}
    (h : Limits n free limited) (hnext : ∀ a, Limits n (next a) (next' a)) :
    Limits n (free >>= next) (limited >>= next') := by
  -- The log of the whole begins with the log of the first part, which therefore decides for the
  -- whole if it has a level past the limit.
  have hsplit : ∀ c, (free c).2.opened <+: ((free >>= next) c).2.opened := by
    intro c
    cases hfree : free c with
    | mk outcome c' =>
        cases outcome with
        | error e =>
            exact ⟨[], by rw [bind_of_error hfree, List.append_nil]⟩
        | ok a =>
            rw [bind_of_ok hfree]
            exact (hnext a).grows c'
  refine ⟨?_, ?_, ?_, ?_⟩
  · intro c
    have hkept := h.kept c
    cases hfree : free c with
    | mk outcome c' =>
        rw [hfree] at hkept
        cases outcome with
        | error e =>
            rw [bind_of_error hfree]
            exact hkept
        | ok a =>
            rw [bind_of_ok hfree]
            exact ((hnext a).kept c').trans hkept
  · intro c
    exact (h.grows c).trans (hsplit c)
  · intro c hnone
    obtain ⟨later, hlater⟩ := hsplit c
    have hfirst : firstPast n (free c).2.opened = none := by
      rw [← hlater] at hnone
      exact firstPast_append_eq_none hnone
    have hsame := h.same c hfirst
    cases hfree : free c with
    | mk outcome c' =>
        rw [hfree] at hsame
        cases outcome with
        | error e => rw [bind_of_error hfree, bind_of_error hsame]
        | ok a =>
            rw [bind_of_ok hfree] at hnone ⊢
            rw [bind_of_ok hsame]
            exact (hnext a).same c' hnone
  · intro c o hdepth hnone hsome
    cases hfirst : firstPast n (free c).2.opened with
    | some first =>
        obtain ⟨later, hlater⟩ := hsplit c
        obtain rfl : first = o := by
          rw [← hlater, firstPast_append_eq_some hfirst] at hsome
          exact Option.some.inj hsome
        obtain ⟨hlevel, herror⟩ := h.refused c first hdepth hnone hfirst
        refine ⟨hlevel, ?_⟩
        cases hlimited : limited c with
        | mk outcome c' =>
            rw [hlimited] at herror
            obtain rfl : outcome = _ := herror
            rw [bind_of_error hlimited]
    | none =>
        have hsame := h.same c hfirst
        have hkept := h.kept c
        cases hfree : free c with
        | mk outcome c' =>
            rw [hfree] at hsame hkept hfirst
            cases outcome with
            | error e =>
                rw [bind_of_error hfree, hfirst] at hsome
                cases hsome
            | ok a =>
                rw [bind_of_ok hfree] at hsome
                rw [bind_of_ok hsame]
                exact (hnext a).refused c' o (hkept ▸ hdepth) hfirst hsome

theorem Limits.map {free limited : Counted α} (h : Limits n free limited) (f : α → β) :
    Limits n (f <$> free) (f <$> limited) :=
  h.bind fun a => .pure (f a)

theorem Limits.within {free limited : Counted α} (h : Limits n free limited) (opener : Token) :
    Limits n (within none opener free) (within (some n) opener limited) := by
  have hentered : ∀ c : Cursor, firstPast n c.opened = none →
      firstPast n (c.enter opener).opened =
        if n < c.depth + 1 then some ⟨opener, c.depth + 1⟩ else none :=
    fun c hnone => firstPast_append_singleton hnone _
  refine ⟨?_, ?_, ?_, ?_⟩
  · intro c
    rw [within_none, closing, h.kept]
    exact Nat.add_sub_cancel _ _
  · intro c
    rw [within_none]
    exact (List.prefix_append c.opened _).trans (h.grows (c.enter opener))
  · intro c hnone
    rw [within_none] at hnone ⊢
    obtain ⟨later, hlater⟩ := h.grows (c.enter opener)
    have hopener : firstPast n (c.enter opener).opened = none := by
      rw [closing, ← hlater] at hnone
      exact firstPast_append_eq_none hnone
    have hless : c.depth < n := by
      rw [hentered c (firstPast_append_eq_none hopener)] at hopener
      split at hopener
      · cases hopener
      · omega
    rw [within_of_open hless, closing, closing, h.same _ hnone]
  · intro c o hdepth hnone hsome
    rw [within_none] at hsome
    have hopener := hentered c hnone
    by_cases hless : c.depth < n
    · rw [if_neg (by omega)] at hopener
      rw [within_of_open hless]
      exact h.refused _ o hless hopener hsome
    · rw [if_pos (by omega)] at hopener
      obtain ⟨later, hlater⟩ := h.grows (c.enter opener)
      rw [closing, ← hlater, firstPast_append_eq_some hopener] at hsome
      cases hsome
      rw [within_of_full (by omega)]
      exact ⟨congrArg (· + 1) (by omega), rfl⟩

theorem Limits.rounds {free limited : α → Counted (Option α)}
    (h : ∀ a, Limits n (free a) (limited a)) (m : Nat) (a : α) :
    Limits n (rounds free m a) (rounds limited m a) := by
  induction m generalizing a with
  | zero => exact .pure a
  | succ m ih =>
      apply Limits.bind (h a)
      intro b?
      cases b? with
      | none => exact .pure a
      | some b => exact ih b

theorem Limits.iterate {free limited : α → Counted (Option α)}
    (h : ∀ a, Limits n (free a) (limited a)) (a : α) :
    Limits n (iterate free a) (iterate limited a) :=
  .of_at fun c => ⟨_, _, .rounds h (c.ahead.length + 1) a, rfl, rfl⟩

theorem Limits.another (finished : Phrase Bool) {free limited : Counted α}
    (h : Limits n free limited) : Limits n (another finished free) (another finished limited) := by
  apply Limits.bind (.ofPhrase _)
  intro isFinished
  cases isFinished with
  | true => exact .pure none
  | false => exact h.map some

/-- Both readings are the same descent, apart from what they do where a level is opened. -/
theorem Limits.relates (n : Nat) :
    Descent.Relates (fun _ _ => Limits n) (Descent.counted none) (Descent.counted (some n)) where
  pure _ a := .pure a
  bind h hnext := h.bind hnext
  map f h := h.map f
  phrase _ p := .ofPhrase p
  level opener h := h.within opener
  factor h := h

theorem Limits.expression (n : Nat) : Limits n (expression none) (expression (some n)) := by
  have h := (Limits.relates n).run .expression
  rwa [Descent.counted_expression, Descent.counted_expression] at h

theorem Limits.returning (n : Nat) : Limits n (returning none) (returning (some n)) :=
  .bind (.ofPhrase _) fun _ => (Limits.expression n).map _

theorem Limits.body (n : Nat) : Limits n (body none) (body (some n)) := by
  apply Limits.map
  exact .iterate (fun done => .another _ ((Limits.returning n).map (· :: done))) []

theorem Limits.definition (n : Nat) : Limits n (definition none) (definition (some n)) := by
  apply Limits.bind (.ofPhrase _)
  intro _
  apply Limits.bind (.ofPhrase _)
  intro name
  apply Limits.bind (.ofPhrase _)
  intro params
  apply Limits.bind (.ofPhrase _)
  intro _
  exact (Limits.body n).map _

theorem Limits.assignment (target : String) (n : Nat) :
    Limits n (assignment target none) (assignment target (some n)) :=
  .bind (.ofPhrase _) fun _ => (Limits.expression n).map _

theorem Limits.statement (n : Nat) : Limits n (statement none) (statement (some n)) := by
  apply Limits.of_at
  intro c
  simp only [Counted.statement]
  split
  · exact ⟨_, _, .definition n, rfl, rfl⟩
  · split
    · next target _ => exact ⟨_, _, .assignment target n, rfl, rfl⟩
    · exact ⟨_, _, (Limits.expression n).map _, rfl, rfl⟩

theorem Limits.program (n : Nat) : Limits n (program none) (program (some n)) := by
  apply Limits.bind
  · exact .iterate (fun done => .another _ ((Limits.statement n).map (· :: done))) []
  · intro reversed
    exact .pure _

/-- Under a limit that no level goes past, the outcome is that of the reading without a limit. -/
theorem ofTokensWithin_eq_unlimited {ts : List Token}
    (h : firstPast n (ofTokens none ts).2.opened = none) :
    Program.ofTokensWithin n ts = (ofTokens none ts).1 := by
  rw [← (ofTokens_some n ts).1]
  exact congrArg Prod.fst ((Limits.program n).same ⟨ts, 0, []⟩ h)

/-- The first level past a limit is refused. -/
theorem ofTokensWithin_eq_refused {ts : List Token} {o : Opening}
    (h : firstPast n (ofTokens none ts).2.opened = some o) :
    o.level = n + 1 ∧
      Program.ofTokensWithin n ts = .error ⟨o.opener, .shallowerExpression⟩ := by
  rw [← (ofTokens_some n ts).1]
  exact (Limits.program n).refused ⟨ts, 0, []⟩ o (Nat.zero_le n) rfl h

theorem exists_firstPast_eq_none (opened : List Opening) :
    ∃ n, ∀ m ≥ n, firstPast m opened = none := by
  induction opened with
  | nil => exact ⟨0, fun _ _ => rfl⟩
  | cons o opened ih =>
      obtain ⟨n, hn⟩ := ih
      refine ⟨max o.level n, ?_⟩
      intro m hm
      rw [firstPast, List.find?_cons_of_neg]
      · exact hn m (by omega)
      · simp only [decide_eq_true_eq]
        omega

/-- A limit that is high enough for the tokens is none. -/
theorem exists_limit_eq_unlimited (ts : List Token) :
    ∃ n, ∀ m ≥ n, Program.ofTokensWithin m ts = (ofTokens none ts).1 := by
  obtain ⟨n, hn⟩ := exists_firstPast_eq_none (ofTokens none ts).2.opened
  exact ⟨n, fun m hm => ofTokensWithin_eq_unlimited (hn m hm)⟩

example :
    (ofTokens none
      [Machine.inserted .identifier "f", Machine.inserted .punctuation "(",
        Machine.inserted .operator "-", Machine.inserted .identifier "x"]).2.opened =
      [⟨Machine.inserted .identifier "f", 1⟩, ⟨Machine.inserted .operator "-", 2⟩] := by
  decide

end ExprFront.Counted

namespace ExprFront.Machine

open Grammar

variable {limit : Nat}

/-! Where a level is refused. -/

/-- A level is opened at a parenthesis, at a sign, and at a name that a parenthesis follows. -/
def OpensBefore (t : Token) (us : List Token) : Prop :=
  Opens t ∨ t.kind = .identifier ∧ Next (·.is .punctuation "(") us

theorem OpensBefore.next {t : Token} {us : List Token} (h : OpensBefore t us)
    (hkind : t.kind = .identifier) : Next (·.is .punctuation "(") us := by
  rcases h with (hopen | ⟨hsign, _⟩) | ⟨_, hnext⟩
  · rw [Token.is_iff, hkind] at hopen
    cases hopen.1
  · rw [hkind] at hsign
    cases hsign
  · exact hnext

theorem step_refused {s : State} {t o : Token}
    (h : step limit s (some t) = .error ⟨o, .shallowerExpression⟩) :
    o = t ∧ Opens t ∨ s.stage.held = some o ∧ t.is .punctuation "(" := by
  rcases step_prompt limit s (some t) with hprompt | ⟨u, hheld, hopen, herror⟩
  · rw [h] at hprompt
    obtain ⟨hfound, hopens⟩ := hprompt
    exact .inl ⟨Option.some.inj hfound, hopens rfl t rfl⟩
  · rw [h] at herror
    cases herror
    exact .inr ⟨hheld, hopen⟩

/-- A held name is followed by one parenthesis as by any other. -/
theorem step_held_of_open {s : State} {t u v : Token} (hheld : s.stage.held = some t)
    (hu : u.is .punctuation "(") (hv : v.is .punctuation "(") :
    step limit s (some u) = step limit s (some v) := by
  have hnot : ∀ w : Token, w.is .punctuation "(" → ¬ w.is .operator "=" := by
    intro w hw
    rw [Token.is_iff] at hw
    simp [Token.is_iff, hw.1]
  obtain ⟨done, stage⟩ := s
  cases stage with
  | named t =>
      rw [step_named, step_named, Option.any_some, Option.any_some, if_neg (hnot u hu),
        if_neg (hnot v hv), step_name, step_name, Option.any_some, Option.any_some, if_pos hu,
        if_pos hv]
  | name t frames owner =>
      rw [step_name, step_name, Option.any_some, Option.any_some, if_pos hu, if_pos hv]
  | _ => cases hheld

/-- A run that is refused a level fails at the token that opens it, and it fails in the same way
whatever comes after. -/
theorem run_refused {s : State} {ts : List Token} {o : Token}
    (h : run limit s ts = .error ⟨o, .shallowerExpression⟩) :
    (s.stage.held = some o ∧ Next (·.is .punctuation "(") ts ∧
      ∀ us, Next (·.is .punctuation "(") us →
        run limit s us = .error ⟨o, .shallowerExpression⟩) ∨
    ∃ before tail, ts = before ++ o :: tail ∧ OpensBefore o tail ∧ ∀ us, OpensBefore o us →
      run limit s (before ++ o :: us) = .error ⟨o, .shallowerExpression⟩ := by
  induction ts generalizing s with
  | nil => cases run_nil_found h
  | cons t ts ih =>
      cases hstep : step limit s (some t) with
      | error x =>
          rw [run_cons_of_error hstep] at h
          cases h
          rcases step_refused hstep with ⟨rfl, hopens⟩ | ⟨hheld, ht⟩
          · right
            refine ⟨[], ts, rfl, .inl hopens, ?_⟩
            intro us _
            exact run_cons_of_error hstep
          · left
            refine ⟨hheld, (next_cons _ _ _).mpr ht, ?_⟩
            intro us hus
            cases us with
            | nil => exact absurd hus (not_next_nil _)
            | cons v us =>
                have hv := (next_cons _ _ _).mp hus
                exact run_cons_of_error ((step_held_of_open hheld hv ht).trans hstep)
      | ok s' =>
          rw [run_cons_of_ok hstep] at h
          right
          rcases ih h with ⟨hheld, hnext, hall⟩ | ⟨before, tail, rfl, hopens, hall⟩
          · obtain ⟨rfl, hkind⟩ := step_some_held hstep hheld
            refine ⟨[], ts, rfl, .inr ⟨hkind, hnext⟩, ?_⟩
            intro us hus
            rw [List.nil_append, run_cons_of_ok hstep]
            exact hall us (hus.next hkind)
          · refine ⟨t :: before, tail, rfl, hopens, ?_⟩
            intro us hus
            rw [List.cons_append, run_cons_of_ok hstep]
            exact hall us hus

end ExprFront.Machine

namespace ExprFront.Program

open Counted Machine

/-- The limit makes no other difference: where the reading without a limit opens no level past it,
the outcome is the same, and else the first level past it is refused at the token that opens it,
whatever follows that token. -/
theorem ofTokens_eq_unlimited_or_refused (ts : List Token) :
    match firstPast maxNesting (Counted.ofTokens none ts).2.opened with
    | none => ofTokens ts = (Counted.ofTokens none ts).1
    | some o => o.level = maxNesting + 1 ∧
        ∃ before tail, ts = before ++ o.opener :: tail ∧ OpensBefore o.opener tail ∧
          ∀ us, OpensBefore o.opener us →
            ofTokens (before ++ o.opener :: us) = .error ⟨o.opener, .shallowerExpression⟩ := by
  split
  · next hnone => exact ofTokensWithin_eq_unlimited hnone
  · next o hsome =>
      obtain ⟨hlevel, hrefused⟩ := ofTokensWithin_eq_refused hsome
      refine ⟨hlevel, ?_⟩
      rw [ofTokensWithin_eq_run] at hrefused
      rcases run_refused hrefused with ⟨hheld, _⟩ | ⟨before, tail, hts, hopens, hall⟩
      · cases hheld
      · refine ⟨before, tail, hts, hopens, ?_⟩
        intro us hus
        rw [ofTokens, ofTokensWithin_eq_run]
        exact hall us hus

/-- One sign more than levels may be open. Irreducible, so that only the kernel unfolds it. -/
@[irreducible] def manySigns : List Token :=
  List.replicate (maxNesting + 1) (inserted .operator "-")

theorem manySigns_refused :
    firstPast maxNesting (Counted.ofTokens none manySigns).2.opened =
        some ⟨inserted .operator "-", maxNesting + 1⟩ ∧
      ∀ us, ofTokens (manySigns ++ us) =
        .error ⟨inserted .operator "-", .shallowerExpression⟩ := by
  have hfirst : firstPast maxNesting (Counted.ofTokens none manySigns).2.opened =
      some ⟨inserted .operator "-", maxNesting + 1⟩ := by
    decide +kernel
  have hlimit := ofTokens_eq_unlimited_or_refused manySigns
  rw [hfirst] at hlimit
  obtain ⟨_, before, tail, hsigns, hopens, hall⟩ := hlimit
  refine ⟨hfirst, ?_⟩
  intro us
  rw [hsigns, List.append_assoc, List.cons_append]
  apply hall
  exact .inl (.inr ⟨rfl, .minus, rfl⟩)

end ExprFront.Program
