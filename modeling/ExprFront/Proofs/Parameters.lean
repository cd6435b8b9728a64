import ExprFront.Proofs.Grammar.Complete
import ExprFront.Proofs.Machine.Concatenation

/-!
Parameters of a definition. Each is compared with those before it as soon as it is read, so the
first one that is repeated is refused whatever comes after it; and where none is repeated, the
definition has them all, in their order.
-/

namespace ExprFront

open Token Grammar

/-- Names with commas between them. -/
inductive Enumerated : List Token → List Token → Prop
  | one {t : Token} (h : t.kind = .identifier) : Enumerated [t] [t]
  | more {t comma : Token} {params ts : List Token} (h : t.kind = .identifier)
      (hcomma : comma.is .punctuation ",") (hts : Enumerated params ts) :
      Enumerated (t :: params) (t :: comma :: ts)

/-- The tokens of a definition up to the last of its parameters, of which there is one at least. -/
def OpensDefinition (name : Token) (params ts : List Token) : Prop :=
  ∃ t u us, ts = t :: name :: u :: us ∧ t.is .keyword "def" ∧ name.kind = .identifier ∧
    u.is .punctuation "(" ∧ Enumerated params us

/-- A parameter repeats one of those before it, which do not repeat each other. -/
structure FirstRepeated (t : Token) (before : List Token) : Prop where
  repeated : t.text ∈ before.map Token.text
  distinct : (before.map Token.text).Nodup

theorem exists_firstRepeated_from {before params : List Token}
    (hbefore : (before.map Token.text).Nodup) (h : ¬ ((before ++ params).map Token.text).Nodup) :
    ∃ front t back, before ++ params = front ++ t :: back ∧ FirstRepeated t front := by
  induction params generalizing before with
  | nil =>
      rw [List.append_nil] at h
      exact absurd hbefore h
  | cons t params ih =>
      by_cases hmem : t.text ∈ before.map Token.text
      · exact ⟨before, t, params, rfl, hmem, hbefore⟩
      · have hnext : ((before ++ [t]).map Token.text).Nodup := by
          rw [List.map_append, List.nodup_append]
          refine ⟨hbefore, by simp, ?_⟩
          intro x hx y hy
          rw [List.map_singleton, List.mem_singleton] at hy
          rintro rfl
          exact hmem (hy ▸ hx)
        rw [List.append_cons] at h ⊢
        exact ih hnext h

/-- If a name is repeated among parameters, there is a first one that repeats another. -/
theorem exists_firstRepeated {params : List Token} (h : ¬ (params.map Token.text).Nodup) :
    ∃ front t back, params = front ++ t :: back ∧ FirstRepeated t front := by
  have hnone : (([] : List Token).map Token.text).Nodup := .nil
  exact exists_firstRepeated_from hnone h

theorem Enumerated.head {params ts : List Token} (h : Enumerated params ts) :
    ∃ t us, ts = t :: us ∧ t.kind = .identifier := by
  cases h with
  | one hkind => exact ⟨_, _, rfl, hkind⟩
  | more hkind _ _ => exact ⟨_, _, rfl, hkind⟩

theorem Enumerated.cons {t : Token} {params ts : List Token} (h : Enumerated (t :: params) ts)
    (hparams : params ≠ []) : ∃ comma us, ts = t :: comma :: us ∧ t.kind = .identifier ∧
      comma.is .punctuation "," ∧ Enumerated params us := by
  cases h with
  | one _ => exact absurd rfl hparams
  | more hkind hcomma hus => exact ⟨_, _, rfl, hkind, hcomma, hus⟩

namespace Machine

variable {limit : Nat} {done : List Statement}

/-- Tokens that can be the whole input leave their statements complete to what does not go on with
the last of these. -/
theorem run_append_of_ok {s : State} {ts us : List Token} {p : Program}
    (h : run limit s ts = .ok p) (hfollows : Follows us) (hopen : NotOpen us) :
    run limit s (ts ++ us) = run limit ⟨p.statements.reverse, .start⟩ us := by
  obtain ⟨s', hreach, hend⟩ := exists_reach h
  obtain ⟨last, _, hp, hlast⟩ := exists_last_of_end hend
  have hdone : p.statements.reverse = last.toList ++ s'.done := by
    rw [hp]
    cases last <;> simp
  rw [run_append, hreach, hdone]
  exact hlast us hfollows hopen

/-- The parameters up to the first that is repeated are taken, and that one is refused. -/
theorem parameters_refused {front back : List Token} {t : Token} {ts : List Token}
    (hts : Enumerated (front ++ t :: back) ts) {earlier : List String}
    (hdistinct : ((front.map Token.text).reverse ++ earlier).Nodup)
    (hrepeated : t.text ∈ (front.map Token.text).reverse ++ earlier)
    (name : String) (rest : List Token) :
    run limit ⟨done, .parameter name earlier⟩ (ts ++ rest) =
      .error ⟨t, .freshParameterName⟩ := by
  induction front generalizing ts earlier with
  | nil =>
      have hrefused (hkind : t.kind = .identifier) : step limit ⟨done, .parameter name earlier⟩ t =
          .error ⟨t, .freshParameterName⟩ :=
        (step_parameter_some limit done name earlier t).trans
          ((if_pos hkind).trans (if_pos hrepeated))
      cases hts with
      | one hkind => exact run_cons_of_error (hrefused hkind)
      | more hkind _ _ => exact run_cons_of_error (hrefused hkind)
  | cons u front ih =>
      rw [List.map_cons, List.reverse_cons, List.append_assoc] at hdistinct hrepeated
      have hfresh : u.text ∉ earlier :=
        (List.nodup_cons.mp (List.nodup_append.mp hdistinct).2.1).1
      obtain ⟨comma, us, rfl, hkind, hcomma, hus⟩ := hts.cons (by simp)
      have hparam := step_parameter_some limit done name earlier u
      have hnext := step_moreParameters limit done name (u.text :: earlier) (some comma)
      rw [List.cons_append, List.cons_append,
        run_cons_of_ok ((hparam.trans (if_pos hkind)).trans (if_neg hfresh)),
        run_cons_of_ok (hnext.trans (if_pos hcomma))]
      exact ih hus hdistinct hrepeated

theorem run_opensDefinition {name : Token} {params ts : List Token}
    (h : OpensDefinition name params ts) (rest : List Token) :
    ∃ us, Enumerated params us ∧ run limit ⟨done, .start⟩ (ts ++ rest) =
      run limit ⟨done, .parameter name.text []⟩ (us ++ rest) := by
  obtain ⟨t, u, us, rfl, hdef, hname, hopen, hus⟩ := h
  refine ⟨us, hus, ?_⟩
  obtain ⟨first, vs, rfl, hkind⟩ := hus.head
  have hclose : ¬ first.is .punctuation ")" := by simp [Token.is_iff, hkind]
  have hstart : step limit ⟨done, .start⟩ (some t) = .ok ⟨done, .functionName⟩ := if_pos hdef
  have hnamed := step_functionName_some limit done name
  have hopened := step_openParameters limit done name.text (some u)
  have hfirst := step_firstParameter limit done name.text (some first)
  rw [List.cons_append, List.cons_append, List.cons_append, run_cons_of_ok hstart,
    run_cons_of_ok (hnamed.trans (if_pos hname)), run_cons_of_ok (hopened.trans (if_pos hopen))]
  exact run_congr (hfirst.trans (if_neg hclose))

theorem opensDefinition_follows {name : Token} {params ts : List Token}
    (h : OpensDefinition name params ts) (rest : List Token) :
    Follows (ts ++ rest) ∧ NotOpen (ts ++ rest) := by
  obtain ⟨t, u, us, rfl, hdef, _⟩ := h
  have hkey := is_iff_key.mp hdef
  refine ⟨.cons ?_ ?_ _, notOpen_cons hkey (by simp) _⟩
  · rw [(is_iff.mp hdef).1]
    decide
  · rw [hkey]
    decide

end Machine

namespace Grammar

variable {n : Nat} {params ts rest : List Token} {close : Token}

/-- The grammar finds the parameters of a definition where they are enumerated. -/
theorem Parameters.eq_of_enumerated (h : Enumerated params ts) (hclose : close.is .punctuation ")")
    {names : List String} {v : Token} {mid : List Token} (hv : v.is .punctuation ")")
    (hnames : Parameters (ts ++ close :: rest) names (v :: mid)) :
    names = params.map Token.text := by
  induction h generalizing names with
  | @one t hkind =>
      cases hnames with
      | none => simp [Token.is_iff, hkind] at hv
      | some _ hmore =>
          cases hmore with
          | nil => rfl
          | cons hcomma _ _ =>
              rw [Token.is_iff] at hclose hcomma
              simp [hclose.2] at hcomma
  | @more t comma params ts hkind hcomma _ ih =>
      rw [List.cons_append, List.cons_append] at hnames
      generalize ts ++ close :: rest = us at hnames ih
      cases hnames with
      | none => simp [Token.is_iff, hkind] at hv
      | some _ hmore =>
          cases hmore with
          | nil =>
              rw [Token.is_iff] at hcomma hv
              simp [hv.2] at hcomma
          | cons _ hnext hlater => rw [ih (.some hnext hlater), List.map_cons]

/-- What begins like a definition is one. -/
theorem Prog.exists_definition {name : Token} {ss : List Statement}
    (h : OpensDefinition name params ts) (hclose : close.is .punctuation ")")
    (hss : Prog True n (ts ++ close :: rest) ss) :
    ∃ body later, ss = .definition name.text (params.map Token.text) body :: later := by
  obtain ⟨t, u, us, rfl, hdef, hname, _, hus⟩ := h
  have hkeyword : t.kind = .keyword := (Token.is_iff.mp hdef).1
  cases hss with
  | cons hs _ =>
      cases hs with
      | definition _ _ _ hparams _ hv _ _ =>
          rw [Parameters.eq_of_enumerated hus hclose hv hparams]
          exact ⟨_, _, rfl⟩
      | assignment hkind _ _ =>
          rw [hkeyword] at hkind
          cases hkind
      | expression _ he =>
          obtain ⟨first, hfirst, hstarts⟩ := he.starts
          cases hfirst
          exact absurd hkeyword hstarts.not_keyword

end Grammar

namespace Program

open Machine

/-- A definition whose parameters are repeated has a first one that is, and is refused at that one,
whatever follows. A definition that is read has its parameters in their order. Other statements may
come before. -/
theorem ofTokens_of_opensDefinition {before ts : List Token} {q : Program} {name : Token}
    {params : List Token} (hbefore : ofTokens before = .ok q)
    (hts : OpensDefinition name params ts) :
    (¬ (params.map Token.text).Nodup →
      ∃ front t back, params = front ++ t :: back ∧ FirstRepeated t front) ∧
    (∀ front t back, params = front ++ t :: back → FirstRepeated t front →
      ∀ rest, ofTokens (before ++ (ts ++ rest)) = .error ⟨t, .freshParameterName⟩) ∧
    ∀ (close : Token) (rest : List Token) (p : Program), close.is .punctuation ")" →
      ofTokens (before ++ (ts ++ close :: rest)) = .ok p → ∃ body later, p.statements =
        q.statements ++ .definition name.text (params.map Token.text) body :: later := by
  have hrun (rest : List Token) : ofTokens (before ++ (ts ++ rest)) =
      run maxNesting ⟨q.statements.reverse, .start⟩ (ts ++ rest) := by
    obtain ⟨hfollows, hopen⟩ := opensDefinition_follows hts rest
    rw [ofTokens, ofTokensWithin_eq_run] at hbefore ⊢
    exact run_append_of_ok hbefore hfollows hopen
  refine ⟨exists_firstRepeated, ?_, ?_⟩
  · rintro front t back rfl hfirst rest
    obtain ⟨us, hus, hopened⟩ := run_opensDefinition hts rest
    rw [hrun, hopened]
    apply parameters_refused hus
    · rw [List.append_nil]
      exact (List.reverse_perm _).nodup_iff.mpr hfirst.distinct
    · rw [List.append_nil, List.mem_reverse]
      exact hfirst.repeated
  · intro close rest p hclose hp
    rw [hrun, run_eq_after, List.reverse_reverse] at hp
    cases halone : run maxNesting ⟨[], .start⟩ (ts ++ close :: rest) with
    | error x =>
        rw [halone] at hp
        cases hp
    | ok more =>
        rw [halone] at hp
        cases hp
        rw [← ofTokensWithin_eq_run, ofTokensWithin_eq_ok_iff] at halone
        obtain ⟨body, later, hmore⟩ := Prog.exists_definition hts hclose halone
        exact ⟨body, later, congrArg (q.statements ++ ·) hmore⟩

/-- After `x`, `def f(a, b, a` is refused at the second `a`, and `def f(a, b): return a` is read. -/
theorem ofTokens_of_opensDefinition_repeated :
    let x := inserted .identifier "x"
    let f := inserted .identifier "f"
    let a : Token := ⟨.identifier, "a", ⟨1, 7⟩⟩
    let b : Token := ⟨.identifier, "b", ⟨1, 10⟩⟩
    let again : Token := ⟨.identifier, "a", ⟨1, 13⟩⟩
    let comma := inserted .punctuation ","
    let close := inserted .punctuation ")"
    let front := [inserted .keyword "def", f, inserted .punctuation "(", a, comma, b]
    let tail := [inserted .punctuation ":", inserted .keyword "return", a]
    let p : Program :=
      ⟨[.expression (.var "x"), .definition "f" ["a", "b"] [.returning (.var "a")]]⟩
    ofTokens [x] = .ok ⟨[.expression (.var "x")]⟩ ∧
      OpensDefinition f [a, b, again] (front ++ [comma, again]) ∧ FirstRepeated again [a, b] ∧
      (∀ rest, ofTokens ([x] ++ ((front ++ [comma, again]) ++ rest)) =
        .error ⟨again, .freshParameterName⟩) ∧
      OpensDefinition f [a, b] front ∧ ofTokens ([x] ++ (front ++ close :: tail)) = .ok p ∧
      ∃ body later, p.statements =
        [.expression (.var "x")] ++ .definition "f" ["a", "b"] body :: later := by
  intro x f a b again comma close front tail p
  have hbefore : ofTokens [x] = .ok ⟨[.expression (.var "x")]⟩ := by
    rw [ofTokens, ofTokensWithin_eq_run]
    rfl
  have hrepeated : OpensDefinition f [a, b, again] (front ++ [comma, again]) :=
    ⟨_, _, _, rfl, rfl, rfl, rfl, .more rfl rfl (.more rfl rfl (.one rfl))⟩
  have hread : OpensDefinition f [a, b] front :=
    ⟨_, _, _, rfl, rfl, rfl, rfl, .more rfl rfl (.one rfl)⟩
  have hp : ofTokens ([x] ++ (front ++ close :: tail)) = .ok p := by
    rw [ofTokens, ofTokensWithin_eq_run]
    rfl
  have hfirst : FirstRepeated again [a, b] := ⟨by decide, by decide⟩
  have hrefused := (ofTokens_of_opensDefinition hbefore hrepeated).2.1 [a, b] again [] rfl hfirst
  have hnames := (ofTokens_of_opensDefinition hbefore hread).2.2 close tail p rfl hp
  exact ⟨hbefore, hrepeated, hfirst, hrefused, hread, hp, hnames⟩

end Program

end ExprFront
