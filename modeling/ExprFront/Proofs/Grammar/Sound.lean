import ExprFront.Proofs.Grammar
import ExprFront.Proofs.Reading

/-!
What is read derives in the greedy grammar. A loop of the reader gives a repetition of the grammar,
and the induction is on the levels that are left.
-/

namespace ExprFront

open Grammar Phrase

theorem BinaryOp.ofSymbol?_eq_some_iff {text : String} {op : BinaryOp} :
    BinaryOp.ofSymbol? text = some op ↔ text = op.symbol := by
  constructor
  · intro h
    exact (BinaryOp.symbol_of_ofSymbol? h).symm
  · rintro rfl
    exact BinaryOp.ofSymbol?_symbol op

theorem UnaryOp.ofSymbol?_eq_some_iff {text : String} {op : UnaryOp} :
    UnaryOp.ofSymbol? text = some op ↔ text = op.symbol := by
  constructor
  · intro h
    exact (UnaryOp.symbol_of_ofSymbol? h).symm
  · rintro rfl
    exact UnaryOp.ofSymbol?_symbol op

namespace Expr

theorem operation?_eq_some_iff {ops : List BinaryOp} {t : Token} {op : BinaryOp} :
    operation? ops t = some op ↔ op ∈ ops ∧ Sign op t := by
  by_cases h : t.kind = .operator
  · simp [operation?, h, Sign, Option.filter_eq_some_iff, BinaryOp.ofSymbol?_eq_some_iff,
      and_comm]
  · simp [operation?, h, Sign]

theorem operation?_eq_none_iff {ops : List BinaryOp} {t : Token} :
    operation? ops t = none ↔ ¬ SignOf ops t := by
  rw [Option.eq_none_iff_forall_ne_some]
  simp [operation?_eq_some_iff, SignOf]

end Expr

namespace Phrase

variable {α β γ : Type}

theorem andThen_eq_ok {p : Phrase α} {next : α → List Token → Except ParseError γ}
    {ts : List Token} {c : γ} :
    p.andThen next ts = .ok c ↔ ∃ a rest, p.read ts = .ok (a, rest) ∧ next a rest = .ok c := by
  rw [andThen]
  cases p.read ts with
  | error e => simp
  | ok r =>
      obtain ⟨a, rest⟩ := r
      constructor
      · intro h
        exact ⟨a, rest, rfl, h⟩
      · intro hread
        obtain ⟨_, _, hr, h⟩ := hread
        cases hr
        exact h

theorem andThen_expect_eq_ok {kind : Token.Kind} {text : String}
    {next : Unit → List Token → Except ParseError γ} {ts : List Token} {c : γ} :
    (expect kind text).andThen next ts = .ok c ↔
      ∃ v rest, ts = v :: rest ∧ v.is kind text ∧ next () rest = .ok c := by
  cases ts with
  | nil => simp
  | cons t ts =>
      rw [andThen_expect_cons]
      split
      · next hsome =>
          constructor
          · intro h
            exact ⟨t, ts, rfl, hsome, h⟩
          · intro hfront
            obtain ⟨_, _, hcons, _, h⟩ := hfront
            cases hcons
            exact h
      · next hnone =>
          constructor
          · intro h
            cases h
          · intro hfront
            obtain ⟨_, _, hcons, hsome, _⟩ := hfront
            cases hcons
            exact absurd hsome hnone

/-- What holds after the last round, and is passed back from each round to the one before, holds
where the loop begins. -/
theorem iterate_induction {round : α → Phrase (Option α)} {advances : ∀ a, (round a).Advances}
    {b : α} {rest : List Token} {motive : α → List Token → Prop}
    (stop : ∀ ts, (round b).read ts = .ok (none, rest) → motive b ts)
    (go : ∀ a ts c mid, (round a).read ts = .ok (some c, mid) → motive c mid → motive a ts)
    {a : α} {ts : List Token} (h : (iterate round advances a).read ts = .ok (b, rest)) :
    motive a ts := by
  change readRounds round advances a ts = .ok (b, rest) at h
  fun_induction readRounds round advances a ts with
  | case1 => cases h
  | case2 a ts last hlast =>
      cases h
      exact stop ts hlast
  | case3 a ts c mid hc ih => exact go a ts c mid hc (ih h)

theorem after?_eq_none {sign? : Token → Option β} {follow : β → Phrase α} {ts rest : List Token}
    (h : (after? sign? follow).read ts = .ok (none, rest)) :
    ts = rest ∧ ∀ t ∈ rest.head?, sign? t = none := by
  rw [read_eq_andThen] at h
  cases ts with
  | nil =>
      cases h
      simp
  | cons t us =>
      rw [andThen_after?_cons] at h
      split at h
      · next hnone =>
          cases h
          simpa using hnone
      · obtain ⟨a, mid, _, h⟩ := andThen_eq_ok.mp h
        cases h

theorem after?_eq_some {sign? : Token → Option β} {follow : β → Phrase α} {ts mid : List Token}
    {a : α} (h : (after? sign? follow).read ts = .ok (some a, mid)) :
    ∃ t us b, ts = t :: us ∧ sign? t = some b ∧ (follow b).read us = .ok (a, mid) := by
  rw [read_eq_andThen] at h
  cases ts with
  | nil => cases h
  | cons t us =>
      rw [andThen_after?_cons] at h
      split at h
      · cases h
      · next b hsome =>
          obtain ⟨a, mid, ha, h⟩ := andThen_eq_ok.mp h
          cases h
          exact ⟨t, us, b, rfl, hsome, ha⟩

theorem another_eq_none {finished : Phrase Bool} {item : Phrase α} {ts rest : List Token}
    (h : (another finished item).read ts = .ok (none, rest)) :
    finished.read ts = .ok (true, rest) := by
  rw [read_eq_andThen, andThen_another] at h
  obtain ⟨isFinished, mid, hfinished, h⟩ := andThen_eq_ok.mp h
  cases isFinished with
  | true =>
      cases h
      exact hfinished
  | false =>
      obtain ⟨a, last, _, h⟩ := andThen_eq_ok.mp h
      cases h

theorem another_eq_some {finished : Phrase Bool} {item : Phrase α} {ts last : List Token} {a : α}
    (h : (another finished item).read ts = .ok (some a, last)) :
    ∃ mid, finished.read ts = .ok (false, mid) ∧ item.read mid = .ok (a, last) := by
  rw [read_eq_andThen, andThen_another] at h
  obtain ⟨isFinished, mid, hfinished, h⟩ := andThen_eq_ok.mp h
  cases isFinished with
  | true => cases h
  | false =>
      obtain ⟨a, last, ha, h⟩ := andThen_eq_ok.mp h
      cases h
      exact ⟨mid, hfinished, ha⟩

theorem itemsFrom_sound {item : List α → Phrase α}
    (more : List α → List Token → List α → List Token → Prop)
    (nil : ∀ done rest, more done rest [] rest)
    (cons : ∀ done t us a mid as rest, t.is .punctuation "," →
      (item done).read us = .ok (a, mid) → more (a :: done) mid as rest →
      more done (t :: us) (a :: as) rest)
    {done out : List α} {ts rest : List Token}
    (h : (itemsFrom item done).read ts = .ok (out, rest)) :
    ∃ as, more done ts as rest ∧ out = as.reverse ++ done := by
  refine iterate_induction
    (motive := fun done ts => ∃ as, more done ts as rest ∧ out = as.reverse ++ done) ?_ ?_ h
  · intro ts hround
    obtain ⟨rfl, _⟩ := after?_eq_none hround
    exact ⟨[], nil _ _, rfl⟩
  · intro done ts next mid hround hlater
    obtain ⟨as, hmore, rfl⟩ := hlater
    obtain ⟨t, us, _, rfl, hcomma, hitem⟩ := after?_eq_some hround
    obtain ⟨a, _, ha, hnext⟩ := read_bind_eq_ok.mp hitem
    cases hnext
    have htest : t.is .punctuation "," := by
      cases hother : t.is .punctuation "," with
      | true => rfl
      | false => simp [hother] at hcomma
    exact ⟨a :: as, cons done t us a mid as rest htest ha hmore, by simp⟩

end Phrase

theorem Expr.joinFrom_sound {ops : List BinaryOp} {operand : Phrase Expr}
    (others : List Token → List (BinaryOp × Expr) → List Token → Prop)
    (nil : ∀ rest, ¬ Next (SignOf ops) rest → others rest [] rest)
    (cons : ∀ op t us e mid more rest, op ∈ ops → Sign op t → operand.read us = .ok (e, mid) →
      others mid more rest → others (t :: us) ((op, e) :: more) rest)
    {left out : Expr} {ts rest : List Token}
    (h : (joinFrom ops operand left).read ts = .ok (out, rest)) :
    ∃ more, others ts more rest ∧ out = joined left more := by
  refine iterate_induction
    (motive := fun left ts => ∃ more, others ts more rest ∧ out = joined left more) ?_ ?_ h
  · intro ts hround
    obtain ⟨rfl, hend⟩ := after?_eq_none hround
    refine ⟨[], nil _ ?_, rfl⟩
    intro hnext
    obtain ⟨t, ht, hsign⟩ := hnext
    exact operation?_eq_none_iff.mp (hend t ht) hsign
  · intro left ts next mid hround hlater
    obtain ⟨more, hmore, rfl⟩ := hlater
    obtain ⟨t, us, op, rfl, hop, hright⟩ := after?_eq_some hround
    obtain ⟨hmem, hsign⟩ := operation?_eq_some_iff.mp hop
    obtain ⟨right, _, he, hnext⟩ := read_bind_eq_ok.mp hright
    cases hnext
    exact ⟨(op, right) :: more, cons op t us right mid more rest hmem hsign he hmore, by simp⟩

namespace Expr

variable {n : Nat} {operand : Phrase Expr} {ts rest : List Token} {e : Expr}

theorem term_sound
    (hoperand : ∀ {ts e rest}, operand.read ts = .ok (e, rest) → Factor True n ts e rest)
    (h : (chain BinaryOp.products operand).read ts = .ok (e, rest)) : Term True n ts e rest := by
  rw [chain_eq, read_bind_eq_ok] at h
  obtain ⟨first, mid, hfirst, h⟩ := h
  obtain ⟨others, hothers, rfl⟩ :=
    joinFrom_sound (Products True n) (fun _ hend => .nil fun _ => hend)
      (fun _ _ _ _ _ _ _ hmem hsign he hmore => .cons hmem hsign (hoperand he) hmore) h
  exact .mk (hoperand hfirst) hothers

theorem sum_sound
    (hoperand : ∀ {ts e rest}, operand.read ts = .ok (e, rest) → Factor True n ts e rest)
    (h : (sum operand).read ts = .ok (e, rest)) : Expression True n ts e rest := by
  rw [sum, chain_eq, read_bind_eq_ok] at h
  obtain ⟨first, mid, hfirst, h⟩ := h
  obtain ⟨others, hothers, rfl⟩ :=
    joinFrom_sound (Sums True n) (fun _ hend => .nil fun _ => hend)
      (fun _ _ _ _ _ _ _ hmem hsign he hmore =>
        .cons hmem hsign (term_sound hoperand he) hmore) h
  exact .mk (term_sound hoperand hfirst) hothers

/-- The arguments of a call, up to and with the closing parenthesis. -/
theorem arguments_sound {es : List Expr}
    (hoperand : ∀ {ts e rest}, operand.read ts = .ok (e, rest) → Factor True n ts e rest)
    (h : (listed fun _ => sum operand).read ts = .ok (es, rest)) :
    ∃ v, v.is .punctuation ")" ∧ Arguments True n ts es (v :: rest) := by
  rw [read_eq_andThen, andThen_listed] at h
  split at h
  · next hclose =>
      cases ts with
      | nil => simp at hclose
      | cons v ts =>
          cases h
          exact ⟨v, by simpa using hclose, .none⟩
  · rw [itemsReversed_eq, andThen_bind] at h
    obtain ⟨first, mid, hfirst, h⟩ := andThen_eq_ok.mp h
    obtain ⟨done, last, hdone, h⟩ := andThen_eq_ok.mp h
    obtain ⟨v, rest', rfl, hclose, h⟩ := andThen_expect_eq_ok.mp h
    cases h
    obtain ⟨others, hothers, rfl⟩ :=
      itemsFrom_sound (fun _ => MoreArguments True n) (fun _ _ => .nil)
        (fun _ _ _ _ _ _ _ hcomma he hmore => .cons hcomma (sum_sound hoperand he) hmore) hdone
    refine ⟨v, hclose, ?_⟩
    simpa using Arguments.some (sum_sound hoperand hfirst) hothers

theorem deeper_eq_ok {opener : Token} {inner : Option (Phrase Expr)}
    {body : Phrase Expr → Phrase Expr}
    (h : (deeper opener inner body).read ts = .ok (e, rest)) :
    ∃ operand, inner = some operand ∧ (body operand).read ts = .ok (e, rest) := by
  cases inner with
  | none => cases h
  | some operand => exact ⟨operand, rfl, h⟩

theorem factorWith_sound {inner : Option (Phrase Expr)}
    (hinner : ∀ operand, inner = some operand → ∃ m, n = m + 1 ∧
      ∀ {ts e rest}, operand.read ts = .ok (e, rest) → Factor True m ts e rest)
    (h : (factorWith inner).read ts = .ok (e, rest)) : Factor True n ts e rest := by
  rw [read_eq_andThen] at h
  cases ts with
  | nil =>
      rw [andThen_factorWith_nil] at h
      cases h
  | cons t us =>
      rw [andThen_factorWith_cons] at h
      split at h
      · next hkind =>
          cases h
          exact .integer hkind
      · next hkind =>
          cases h
          exact .float hkind
      · next hkind =>
          split at h
          · next hopen =>
              rw [← read_eq_andThen] at h
              obtain ⟨operand, hsome, h⟩ := deeper_eq_ok h
              obtain ⟨m, rfl, hoperand⟩ := hinner operand hsome
              rw [read_eq_andThen, andThen_map, parenthesised_eq, andThen_bind] at h
              obtain ⟨u, vs, rfl, hu, h⟩ := andThen_expect_eq_ok.mp h
              obtain ⟨es, last, hes, h⟩ := andThen_eq_ok.mp h
              cases h
              obtain ⟨v, hv, hes⟩ := arguments_sound hoperand hes
              exact .call hkind hu hes hv
          · next hopen =>
              cases h
              refine .var hkind fun _ => ?_
              rw [next_is_iff]
              exact hopen
      · next hkind =>
          split at h
          · cases h
          · next op hop =>
              rw [← read_eq_andThen] at h
              obtain ⟨operand, hsome, h⟩ := deeper_eq_ok h
              obtain ⟨m, rfl, hoperand⟩ := hinner operand hsome
              rw [read_eq_andThen, andThen_map] at h
              obtain ⟨inside, last, hinside, h⟩ := andThen_eq_ok.mp h
              cases h
              exact .unary hkind (UnaryOp.ofSymbol?_eq_some_iff.mp hop) (hoperand hinside)
      · next hkind =>
          split at h
          · next htext =>
              rw [← read_eq_andThen] at h
              obtain ⟨operand, hsome, h⟩ := deeper_eq_ok h
              obtain ⟨m, rfl, hoperand⟩ := hinner operand hsome
              rw [read_eq_andThen, andThen_bind] at h
              obtain ⟨inside, last, hinside, h⟩ := andThen_eq_ok.mp h
              rw [andThen_bind] at h
              obtain ⟨v, _, rfl, hv, h⟩ := andThen_expect_eq_ok.mp h
              cases h
              exact .parens (Token.is_iff.mpr ⟨hkind, htext⟩) (sum_sound hoperand hinside) hv
          · cases h
      · cases h

theorem factor_sound (n : Nat) {ts rest : List Token} {e : Expr}
    (h : (factor n).read ts = .ok (e, rest)) : Factor True n ts e rest := by
  induction n generalizing ts e rest with
  | zero =>
      refine factorWith_sound ?_ h
      intro factor hfactor
      cases hfactor
  | succ n ih =>
      refine factorWith_sound ?_ h
      intro inner hinner
      cases hinner
      exact ⟨n, rfl, ih⟩

theorem phrase_sound (n : Nat) {ts rest : List Token} {e : Expr}
    (h : (phrase n).read ts = .ok (e, rest)) : Expression True n ts e rest :=
  sum_sound (factor_sound n) h

end Expr

namespace Statement

variable {n : Nat} {ts rest : List Token}

theorem parameter_sound {earlier : List String} {name : String}
    (h : (parameter earlier).read ts = .ok (name, rest)) :
    ∃ t, ts = t :: rest ∧ t.kind = .identifier ∧ name = t.text ∧ name ∉ earlier := by
  rw [read_eq_andThen, parameter, andThen_bind] at h
  cases ts with
  | nil => cases h
  | cons t us =>
      rw [andThen_take_cons] at h
      by_cases hkind : t.kind = .identifier
      · simp only [hkind, if_true] at h
        split at h
        · cases h
        · next hfresh =>
            cases h
            exact ⟨t, rfl, hkind, rfl, hfresh⟩
      · simp only [hkind, if_false] at h
        cases h

/-- The parameters of a definition, up to and with the closing parenthesis. Each differs from those
before it, so the list has no repetition. -/
theorem parameters_sound {names : List String}
    (h : (listed parameter).read ts = .ok (names, rest)) :
    ∃ v, v.is .punctuation ")" ∧ Parameters ts names (v :: rest) ∧ names.Nodup := by
  rw [read_eq_andThen, andThen_listed] at h
  split at h
  · next hclose =>
      cases ts with
      | nil => simp at hclose
      | cons v ts =>
          cases h
          exact ⟨v, by simpa using hclose, .none, List.nodup_nil⟩
  · rw [itemsReversed_eq, andThen_bind] at h
    obtain ⟨first, mid, hfirst, h⟩ := andThen_eq_ok.mp h
    obtain ⟨done, last, hdone, h⟩ := andThen_eq_ok.mp h
    obtain ⟨v, _, rfl, hclose, h⟩ := andThen_expect_eq_ok.mp h
    cases h
    obtain ⟨t, rfl, hkind, rfl, _⟩ := parameter_sound hfirst
    obtain ⟨others, ⟨hothers, hnodup⟩, rfl⟩ :=
      itemsFrom_sound
        (fun done ts names rest =>
          MoreParameters ts names rest ∧ (done.Nodup → (names.reverse ++ done).Nodup))
        (fun _ _ => ⟨.nil, id⟩) (by
          rintro done t us name mid names rest hcomma hname ⟨hmore, hnodup⟩
          obtain ⟨u, rfl, hkind, rfl, hfresh⟩ := parameter_sound hname
          refine ⟨.cons hcomma hkind hmore, fun hdone => ?_⟩
          simpa using hnodup (List.nodup_cons.mpr ⟨hfresh, hdone⟩)) hdone
    refine ⟨v, hclose, ?_, ?_⟩
    · simpa using Parameters.some hkind hothers
    · exact (List.reverse_perm _).nodup_iff.mpr (hnodup (by simp))

theorem returnPhrase_sound {s : Statement} (h : (returnPhrase n).read ts = .ok (s, rest)) :
    ∃ t us e, ts = t :: us ∧ t.is .keyword "return" ∧ s = .returning e ∧
      Expression True n us e rest := by
  rw [read_eq_andThen, returnPhrase, andThen_bind] at h
  obtain ⟨t, us, rfl, ht, h⟩ := andThen_expect_eq_ok.mp h
  rw [andThen_map] at h
  obtain ⟨e, mid, he, h⟩ := andThen_eq_ok.mp h
  cases h
  exact ⟨t, us, e, rfl, ht, rfl, Expr.phrase_sound n he⟩

theorem nextIs_eq_ok {kind : Token.Kind} {text : String} {b : Bool}
    (h : (not <$> nextIs kind text).read ts = .ok (b, rest)) :
    ts = rest ∧ b = !rest.head?.any (·.is kind text) := by
  rw [read_eq_andThen, andThen_map, andThen_nextIs] at h
  cases h
  exact ⟨rfl, rfl⟩

theorem returnsFrom_sound {done out : List Statement}
    (h : (returnsFrom n done).read ts = .ok (out, rest)) :
    ∃ body, Returns True n ts body rest ∧ out = body.reverse ++ done := by
  refine iterate_induction
    (motive := fun done ts =>
      ∃ body, Returns True n ts body rest ∧ out = body.reverse ++ done) ?_ ?_ h
  · intro ts hround
    obtain ⟨rfl, hend⟩ := nextIs_eq_ok (another_eq_none hround)
    refine ⟨[], .nil fun _ => ?_, rfl⟩
    rw [next_is_iff]
    simpa using hend
  · intro done ts next mid hround hlater
    obtain ⟨body, hbody, rfl⟩ := hlater
    obtain ⟨_, hfinished, hitem⟩ := another_eq_some hround
    obtain ⟨rfl, _⟩ := nextIs_eq_ok hfinished
    obtain ⟨s, _, hs, hnext⟩ := read_bind_eq_ok.mp hitem
    cases hnext
    obtain ⟨t, us, e, rfl, ht, rfl, he⟩ := returnPhrase_sound hs
    exact ⟨.returning e :: body, .cons ht he hbody, by simp⟩

theorem target?_eq_some {target : String} (h : target? ts = some target) :
    ∃ t u us, ts = t :: u :: us ∧ t.kind = .identifier ∧ u.is .operator "=" ∧
      target = t.text := by
  unfold target? at h
  split at h
  · next t u us =>
      split at h
      · next hstart =>
          cases h
          exact ⟨t, u, us, rfl, hstart.1, hstart.2, rfl⟩
      · cases h
  · cases h

theorem target?_eq_none_iff : target? ts = none ↔ ¬ StartsAssignment ts := by
  constructor
  · intro h hassigns
    obtain ⟨t, u, us, rfl, hkind, hu⟩ := hassigns
    simp [target?, hkind, hu] at h
  · intro h
    cases htarget : target? ts with
    | none => rfl
    | some target =>
        obtain ⟨t, u, us, rfl, hkind, hu, _⟩ := target?_eq_some htarget
        exact absurd ⟨t, u, us, rfl, hkind, hu⟩ h

theorem definitionPhrase_sound {s : Statement}
    (h : (definitionPhrase n).read ts = .ok (s, rest)) : Stmt True n ts s rest := by
  rw [read_eq_andThen, definitionPhrase, andThen_bind] at h
  obtain ⟨t, us, rfl, ht, h⟩ := andThen_expect_eq_ok.mp h
  rw [andThen_bind] at h
  cases us with
  | nil => cases h
  | cons name us =>
      rw [andThen_identifier_cons] at h
      split at h
      · next hname =>
          rw [andThen_bind, parenthesised_eq, andThen_bind] at h
          obtain ⟨u, vs, rfl, hu, h⟩ := andThen_expect_eq_ok.mp h
          obtain ⟨params, mid, hparams, h⟩ := andThen_eq_ok.mp h
          obtain ⟨v, hv, hparams, hnodup⟩ := parameters_sound hparams
          rw [andThen_bind] at h
          obtain ⟨w, ws, rfl, hw, h⟩ := andThen_expect_eq_ok.mp h
          rw [andThen_map, body_eq, andThen_map] at h
          obtain ⟨reversed, last, hreversed, h⟩ := andThen_eq_ok.mp h
          cases h
          obtain ⟨body, hbody, rfl⟩ := returnsFrom_sound hreversed
          simpa using Stmt.definition ht hname hu hparams hnodup hv hw hbody
      · cases h

theorem phrase_sound {s : Statement} (h : (phrase n).read ts = .ok (s, rest)) :
    Stmt True n ts s rest := by
  rw [read_eq_andThen, phrase, andThen_ahead] at h
  split at h
  · rw [← read_eq_andThen] at h
    exact definitionPhrase_sound h
  · split at h
    · next target htarget =>
        obtain ⟨t, u, us, rfl, hkind, hu, rfl⟩ := target?_eq_some htarget
        rw [assignmentPhrase, andThen_bind, andThen_skip, andThen_map] at h
        obtain ⟨e, last, he, h⟩ := andThen_eq_ok.mp h
        cases h
        exact .assignment hkind hu (Expr.phrase_sound n he)
    · next htarget =>
        rw [andThen_map] at h
        obtain ⟨e, last, he, h⟩ := andThen_eq_ok.mp h
        cases h
        exact .expression (fun _ => target?_eq_none_iff.mp htarget) (Expr.phrase_sound n he)

end Statement

theorem Program.statementsFrom_sound {n : Nat} {ts rest : List Token} {done out : List Statement}
    (h : (statementsFrom n done).read ts = .ok (out, rest)) :
    ∃ ss, Prog True n ts ss ∧ out = ss.reverse ++ done := by
  refine iterate_induction
    (motive := fun done ts => ∃ ss, Prog True n ts ss ∧ out = ss.reverse ++ done) ?_ ?_ h
  · intro ts hround
    have hend := another_eq_none hround
    rw [read_eq_andThen, andThen_atEnd] at hend
    cases ts with
    | nil => exact ⟨[], .nil, rfl⟩
    | cons t ts => cases hend
  · intro done ts next mid hround hlater
    obtain ⟨ss, hss, rfl⟩ := hlater
    obtain ⟨last, hfinished, hitem⟩ := another_eq_some hround
    have hsame : ts = last := by
      rw [read_eq_andThen, andThen_atEnd] at hfinished
      exact congrArg Prod.snd (Except.ok.inj hfinished)
    subst hsame
    obtain ⟨s, _, hs, hnext⟩ := read_bind_eq_ok.mp hitem
    cases hnext
    exact ⟨s :: ss, .cons (Statement.phrase_sound hs) hss, by simp⟩

end ExprFront
