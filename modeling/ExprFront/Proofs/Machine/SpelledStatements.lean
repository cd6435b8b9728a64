import ExprFront.Proofs.Machine.Spelled

/-!
Runs on the tokens of the written form of statements. A statement is taken whole where the next one
does not go on with it; at a bad seam the two are taken for one, whose value is a call.
-/

namespace ExprFront

open Token

namespace Machine

variable {limit : Nat} {done : List Statement} {owner : Owner} {rest : List Token}

/-! What follows a statement. -/

/-- What follows a statement does not go on with it, unless it turns a name into a call. -/
structure Follows (rest : List Token) : Prop where
  ended : Ended rest
  notReturn : ¬ rest.head?.any (·.is .keyword "return")
  notEquals : ¬ rest.head?.any (·.is .operator "=")

theorem Follows.nil : Follows [] :=
  ⟨⟨rfl, rfl⟩, nofun, nofun⟩

theorem Follows.cons {t : Token} (hkind : t.kind ≠ .operator)
    (hkey : t.key ≠ (.keyword, "return")) (ts : List Token) : Follows (t :: ts) := by
  refine ⟨ended_cons hkind ts, ?_, ?_⟩
  · intro hreturn
    exact hkey (is_iff_key.mp hreturn)
  · intro hequals
    exact hkind (is_iff.mp hequals).1

theorem statement_head {s : Statement} (h : s.Placed) :
    ∃ k keys, s.spelling = k :: keys ∧ k.1 ≠ .operator ∧ k ≠ (.keyword, "return") ∧
      (k = (.punctuation, "(") → s.BeginsInParenthesis) := by
  cases s with
  | assignment target value => exact ⟨_, _, rfl, by simp⟩
  | definition name params body => exact ⟨_, _, rfl, by simp⟩
  | returning value => exact absurd h id
  | expression value =>
      cases value with
      | number text isFloat => exact ⟨_, _, rfl, by cases isFloat <;> simp [Expr.numberKind]⟩
      | var name => exact ⟨_, _, rfl, by simp⟩
      | unary op operand => exact ⟨_, _, rfl, by simp [Statement.BeginsInParenthesis]⟩
      | binary op left right => exact ⟨_, _, rfl, by simp [Statement.BeginsInParenthesis]⟩
      | call function args => exact ⟨_, _, rfl, by simp⟩

theorem follows_of_spells {ss : List Statement} (h : ∀ s ∈ ss, s.Placed) {ts : List Token}
    (hts : Spells ts (Statement.spellingList ss)) : Follows ts := by
  cases ss with
  | nil =>
      rw [hts.nil]
      exact .nil
  | cons s ss =>
      obtain ⟨k, keys, hkeys, hkind, hreturn, _⟩ := statement_head (h s List.mem_cons_self)
      rw [Statement.spellingList, hkeys] at hts
      obtain ⟨t, us, rfl, ht, _⟩ := hts.cons
      apply Follows.cons
      · rw [← ht] at hkind
        exact hkind
      · rw [ht]
        exact hreturn

theorem notOpen_of_spells {ss : List Statement} (h : ∀ s ∈ ss, s.Placed)
    (hfirst : ∀ s ∈ ss.head?, ¬ s.BeginsInParenthesis) {ts : List Token}
    (hts : Spells ts (Statement.spellingList ss)) : NotOpen ts := by
  cases ss with
  | nil =>
      rw [hts.nil]
      nofun
  | cons s ss =>
      obtain ⟨k, keys, hkeys, _, _, hopen⟩ := statement_head (h s List.mem_cons_self)
      rw [Statement.spellingList, hkeys] at hts
      obtain ⟨t, us, rfl, ht, _⟩ := hts.cons
      exact notOpen_cons ht (fun heq => hfirst s rfl (hopen heq)) us

/-! The header of a definition. -/

theorem moreParameters_taken {names : List String} {ts : List Token} {c : Token}
    (hts : Spells ts (spellingMoreNames names)) (hc : c.key = (.punctuation, ")"))
    (name : String) (params : List String) (hnodup : (names.reverse ++ params).Nodup) :
    run limit ⟨done, .moreParameters name params⟩ (ts ++ c :: rest) =
      run limit ⟨done, .colon name (names.reverse ++ params)⟩ rest := by
  induction names generalizing ts params with
  | nil =>
      have hcomma : ¬ c.is .punctuation "," := by
        rw [is_iff_key, hc]
        decide
      have hstep := step_moreParameters limit done name params (some c)
      rw [hts.nil]
      exact run_cons_of_ok ((hstep.trans (if_neg hcomma)).trans (if_pos (is_iff_key.mpr hc)))
  | cons param names ih =>
      obtain ⟨m, us, rfl, hm, hus⟩ := hts.cons
      obtain ⟨t, vs, rfl, ht, hvs⟩ := hus.cons
      obtain ⟨hkind, htext⟩ := Prod.mk.inj ht
      rw [List.reverse_cons, List.append_assoc] at hnodup ⊢
      have hfresh : t.text ∉ params := by
        rw [htext]
        exact (List.nodup_cons.mp (List.nodup_append.mp hnodup).2.1).1
      have hcomma := step_moreParameters limit done name params (some m)
      have hparam := step_parameter_some limit done name params t
      rw [List.cons_append, List.cons_append,
        run_cons_of_ok (hcomma.trans (if_pos (is_iff_key.mpr hm))),
        run_cons_of_ok ((hparam.trans (if_pos hkind)).trans (if_neg hfresh)), htext]
      exact ih hvs (param :: params) hnodup

theorem parameters_taken {names : List String} {ts : List Token} {c : Token}
    (hts : Spells ts (spellingNames names)) (hc : c.key = (.punctuation, ")"))
    (hnodup : names.Nodup) (name : String) :
    run limit ⟨done, .firstParameter name⟩ (ts ++ c :: rest) =
      run limit ⟨done, .colon name names.reverse⟩ rest := by
  cases names with
  | nil =>
      have hstep := step_firstParameter limit done name (some c)
      rw [hts.nil]
      exact run_cons_of_ok (hstep.trans (if_pos (is_iff_key.mpr hc)))
  | cons param names =>
      obtain ⟨t, us, rfl, ht, hus⟩ := hts.cons
      obtain ⟨hkind, htext⟩ := Prod.mk.inj ht
      have hclose : ¬ t.is .punctuation ")" := by
        rw [is_iff_key, ht]
        simp
      have hreverse : (names.reverse ++ [param]).Nodup := by
        rw [← List.reverse_cons]
        exact (List.reverse_perm _).nodup_iff.mpr hnodup
      have hfirst := step_firstParameter limit done name (some t)
      have hparam := step_parameter_some limit done name [] t
      rw [List.cons_append, run_cons_of_ok ((hfirst.trans (if_neg hclose)).trans
        ((hparam.trans (if_pos hkind)).trans (if_neg List.not_mem_nil))), htext,
        moreParameters_taken hus hc name [param] hreverse, List.reverse_cons]

theorem header_taken (limit : Nat) (done : List Statement) {name : String} {params : List String}
    (hnodup : params.Nodup) {body : List Statement} {ts : List Token}
    (hts : Spells ts (Statement.definition name params body).spelling) :
    ∃ us, Spells us (Statement.spellingList body) ∧ ∀ rest,
      run limit ⟨done, .start⟩ (ts ++ rest) =
        run limit ⟨done, .body name params []⟩ (us ++ rest) := by
  obtain ⟨d, ts, rfl, hd, hts⟩ := hts.cons
  obtain ⟨f, ts, rfl, hf, hts⟩ := hts.cons
  obtain ⟨o, ts, rfl, ho, hts⟩ := hts.cons
  obtain ⟨ps, ts, rfl, hps, hts⟩ := hts.append
  obtain ⟨c, ts, rfl, hc, hts⟩ := hts.cons
  obtain ⟨m, us, rfl, hm, hus⟩ := hts.cons
  refine ⟨us, hus, ?_⟩
  intro rest
  obtain ⟨hkind, htext⟩ := Prod.mk.inj hf
  have hdef : step limit ⟨done, .start⟩ (some d) = .ok ⟨done, .functionName⟩ :=
    if_pos (is_iff_key.mpr hd)
  have hname := step_functionName_some limit done f
  have hopen := step_openParameters limit done f.text (some o)
  have hcolon := step_colon limit done name params.reverse (some m)
  rw [List.cons_append, List.cons_append, List.cons_append, List.append_assoc, List.cons_append,
    List.cons_append, run_cons_of_ok hdef, run_cons_of_ok (hname.trans (if_pos hkind)),
    run_cons_of_ok (hopen.trans (if_pos (is_iff_key.mpr ho))), htext,
    parameters_taken hps hc hnodup name,
    run_cons_of_ok (hcolon.trans (if_pos (is_iff_key.mpr hm))), List.reverse_reverse]

/-! The body of a definition. -/

theorem Guarded.trans_append {es more : List Expr} {x y z : Except ParseError Program}
    (hxy : Guarded (∀ e ∈ es, e.need ≤ limit) x y)
    (hyz : Guarded (∀ e ∈ more, e.need ≤ limit) y z) :
    Guarded (∀ e ∈ es ++ more, e.need ≤ limit) x z :=
  (hxy.trans fun _ => hyz).congr List.forall_mem_append.symm

theorem value_taken (limit : Nat) (done : List Statement) (owner : Owner) {e : Expr}
    {ts : List Token} (hts : Spells ts e.spelling) (hrest : ∀ name, e = .var name → NotOpen rest) :
    Guarded (∀ v ∈ [e], v.need ≤ limit) (run limit ⟨done, .factor [] owner⟩ (ts ++ rest))
      (run limit ⟨done, .operand e [] owner⟩ rest) := by
  apply (taken e [] ts rest hts (Nat.zero_le limit) hrest).congr
  rw [levels_nil, Nat.zero_add, List.forall_mem_singleton]

theorem run_operand_returning (hrest : Ended rest) (e : Expr) (name : String)
    (params : List String) (body : List Statement) :
    run limit ⟨done, .operand e [] (.returning name params body)⟩ rest =
      run limit ⟨done, .body name params (.returning e :: body)⟩ rest :=
  run_congr (step_operand_nil limit done (.returning name params body) e hrest)

theorem return_taken {e : Expr} {ts : List Token}
    (hts : Spells ts (Statement.returning e).spelling) (hended : Ended rest)
    (hnotOpen : NotOpen rest) (name : String) (params : List String) (body : List Statement) :
    Guarded (∀ v ∈ [e], v.need ≤ limit) (run limit ⟨done, .body name params body⟩ (ts ++ rest))
      (run limit ⟨done, .body name params (.returning e :: body)⟩ rest) := by
  obtain ⟨r, us, rfl, hr, hus⟩ := hts.cons
  have hreturn := step_body limit done name params body (some r)
  rw [List.cons_append, run_cons_of_ok (hreturn.trans (if_pos (is_iff_key.mpr hr))),
    ← run_operand_returning hended]
  exact value_taken limit done _ hus fun _ _ => hnotOpen

theorem return_head {s : Statement} (h : s.IsReturn) {ss : List Statement} {ts : List Token}
    (hts : Spells ts (Statement.spellingList (s :: ss))) (rest : List Token) :
    Ended (ts ++ rest) ∧ NotOpen (ts ++ rest) := by
  obtain ⟨e, rfl⟩ := h.eq_returning
  obtain ⟨r, us, rfl, hr, _⟩ := hts.cons
  have hkind : r.kind ≠ .operator := by
    rw [(Prod.mk.inj hr).1]
    decide
  exact ⟨ended_cons hkind _, notOpen_cons hr (by decide) _⟩

theorem returns_taken (limit : Nat) (done : List Statement) {ss : List Statement}
    (h : ∀ s ∈ ss, s.IsReturn) {ts : List Token}
    (hts : Spells ts (Statement.spellingList ss)) (hended : Ended rest) (hnotOpen : NotOpen rest)
    (name : String) (params : List String) (body : List Statement) :
    Guarded (∀ e ∈ Statement.valuesList ss, e.need ≤ limit)
      (run limit ⟨done, .body name params body⟩ (ts ++ rest))
      (run limit ⟨done, .body name params (ss.reverse ++ body)⟩ rest) := by
  induction ss generalizing ts body with
  | nil =>
      rw [hts.nil]
      exact .refl (List.forall_mem_nil _) _
  | cons s ss ih =>
      obtain ⟨hs, hss⟩ := List.forall_mem_cons.mp h
      obtain ⟨us, vs, rfl, hus, hvs⟩ := hts.append
      obtain ⟨e, rfl⟩ := hs.eq_returning
      have hnext : Ended (vs ++ rest) ∧ NotOpen (vs ++ rest) := by
        cases ss with
        | nil =>
            rw [hvs.nil]
            exact ⟨hended, hnotOpen⟩
        | cons next ss => exact return_head (List.forall_mem_cons.mp hss).1 hvs rest
      have hreturn : Guarded (∀ v ∈ [e], v.need ≤ limit)
          (run limit ⟨done, .body name params body⟩ (us ++ (vs ++ rest)))
          (run limit ⟨done, .body name params (.returning e :: body)⟩ (vs ++ rest)) :=
        return_taken hus hnext.1 hnext.2 name params body
      have hmore := ih hss hvs (.returning e :: body)
      rw [List.append_assoc, List.reverse_cons, List.append_assoc]
      exact hreturn.trans_append hmore

/-! Whole statements. -/

/-- The statement that is complete once the value under way is. -/
def Owner.finish (e : Expr) : Owner → Statement
  | expression => .expression e
  | assignment target => .assignment target e
  | returning name params body => .definition name params (.returning e :: body).reverse

/-- The values that are complete before the one under way. -/
def Owner.values : Owner → List Expr
  | returning _ _ body => Statement.valuesList body.reverse
  | _ => []

theorem valuesList_append (ss more : List Statement) :
    Statement.valuesList (ss ++ more) = Statement.valuesList ss ++ Statement.valuesList more := by
  induction ss with
  | nil => rfl
  | cons s ss ih =>
      rw [List.cons_append, Statement.valuesList, Statement.valuesList, ih, List.append_assoc]

theorem spellingList_append (ss more : List Statement) :
    Statement.spellingList (ss ++ more) =
      Statement.spellingList ss ++ Statement.spellingList more := by
  induction ss with
  | nil => rfl
  | cons s ss ih =>
      rw [List.cons_append, Statement.spellingList, Statement.spellingList, ih, List.append_assoc]

theorem Owner.values_finish (owner : Owner) (e : Expr) :
    (owner.finish e).values = owner.values ++ [e] := by
  cases owner with
  | expression => rfl
  | assignment target => rfl
  | returning name params body =>
      rw [finish, values, List.reverse_cons, Statement.values, valuesList_append]
      rfl

theorem run_operand_finish (hrest : Follows rest) (e : Expr) :
    run limit ⟨done, .operand e [] owner⟩ rest =
      run limit ⟨owner.finish e :: done, .start⟩ rest := by
  have hvalue := step_operand_nil limit done owner e hrest.ended
  cases owner with
  | expression => exact run_congr hvalue
  | assignment target => exact run_congr hvalue
  | returning name params body =>
      have hbody := step_body limit done name params (.returning e :: body) rest.head?
      rw [run_operand_returning hrest.ended]
      exact run_congr (hbody.trans (if_neg hrest.notReturn))

/-- A statement that has a value of its own is finished by its last value. -/
theorem exists_finish {s : Statement} (h : s.Placed) :
    (∃ name params, s = .definition name params []) ∨ ∃ owner e, s = Owner.finish e owner := by
  cases s with
  | assignment target value => exact .inr ⟨.assignment target, value, rfl⟩
  | returning value => exact absurd h id
  | expression value => exact .inr ⟨.expression, value, rfl⟩
  | definition name params body =>
      rcases List.eq_nil_or_concat body with rfl | ⟨body, last, rfl⟩
      · exact .inl ⟨name, params, rfl⟩
      · obtain ⟨e, rfl⟩ := (h last (by simp)).eq_returning
        refine .inr ⟨.returning name params body.reverse, e, ?_⟩
        simp [Owner.finish]

theorem run_start_of_key {t : Token} {k : Key} (ht : t.key = k) (hdef : k ≠ (.keyword, "def"))
    (hname : k.1 ≠ .identifier) (us : List Token) :
    run limit ⟨done, .start⟩ (t :: us) = run limit ⟨done, .factor [] .expression⟩ (t :: us) := by
  rw [← ht] at hdef hname
  have hnot : ¬ t.is .keyword "def" := by
    rw [is_iff_key]
    exact hdef
  exact run_congr ((if_neg hnot).trans (if_neg hname))

theorem run_start_of_expression {e : Expr} {ts : List Token} (hts : Spells ts e.spelling)
    (hrest : ¬ rest.head?.any (·.is .operator "=")) :
    run limit ⟨done, .start⟩ (ts ++ rest) =
      run limit ⟨done, .factor [] .expression⟩ (ts ++ rest) := by
  cases e with
  | number text isFloat =>
      obtain ⟨t, us, rfl, ht, _⟩ := hts.cons
      have hnumber : Expr.numberKind isFloat ≠ .keyword ∧
          Expr.numberKind isFloat ≠ .identifier := by
        cases isFloat <;> decide
      exact run_start_of_key ht (fun hdef => hnumber.1 (Prod.mk.inj hdef).1) hnumber.2 _
  | var name =>
      obtain ⟨t, us, rfl, ht, hus⟩ := hts.cons
      rw [hus.nil]
      exact run_start_of_name (Prod.mk.inj ht).1 hrest
  | unary op operand =>
      obtain ⟨t, us, rfl, ht, _⟩ := hts.cons
      exact run_start_of_key ht (by decide) (by decide) _
  | binary op left right =>
      obtain ⟨t, us, rfl, ht, _⟩ := hts.cons
      exact run_start_of_key ht (by decide) (by decide) _
  | call function args =>
      obtain ⟨t, us, rfl, ht, hus⟩ := hts.cons
      obtain ⟨o, vs, rfl, ho, _⟩ := hus.cons
      have hsign : ¬ o.is .operator "=" := by
        rw [is_iff_key, ho]
        decide
      exact run_start_of_name (Prod.mk.inj ht).1 hsign

/-- A run comes to the last value of a statement with the rest of the statement behind it. -/
theorem reach_value (limit : Nat) (done : List Statement) {e : Expr}
    (hplaced : (owner.finish e).Placed) (hdistinct : (owner.finish e).Distinct) {ts : List Token}
    (hts : Spells ts (owner.finish e).spelling) (hrest : ¬ rest.head?.any (·.is .operator "=")) :
    ∃ us, Spells us e.spelling ∧ Guarded (∀ v ∈ owner.values, v.need ≤ limit)
      (run limit ⟨done, .start⟩ (ts ++ rest))
      (run limit ⟨done, .factor [] owner⟩ (us ++ rest)) := by
  cases owner with
  | expression =>
      refine ⟨ts, hts, ?_⟩
      rw [run_start_of_expression hts hrest]
      exact .refl (List.forall_mem_nil _) _
  | assignment target =>
      obtain ⟨t, us, rfl, ht, hus⟩ := hts.cons
      obtain ⟨u, vs, rfl, hu, hvs⟩ := hus.cons
      obtain ⟨hkind, htext⟩ := Prod.mk.inj ht
      have hnamed := step_named limit done t (some u)
      refine ⟨vs, hvs, ?_⟩
      rw [List.cons_append, List.cons_append, run_start_of_identifier hkind,
        run_cons_of_ok (hnamed.trans (if_pos (is_iff_key.mpr hu))), htext]
      exact .refl (List.forall_mem_nil _) _
  | returning name params body =>
      obtain ⟨us, hus, hheader⟩ := header_taken limit done hdistinct hts
      rw [List.reverse_cons, spellingList_append] at hus
      obtain ⟨vs, ws, rfl, hvs, hws⟩ := hus.append
      have hbody : ∀ s ∈ body.reverse, s.IsReturn := by
        intro s hs
        apply hplaced
        rw [List.reverse_cons]
        exact List.mem_append_left _ hs
      have hnext : Ended (ws ++ rest) ∧ NotOpen (ws ++ rest) :=
        return_head (hplaced (.returning e) (by simp)) hws rest
      have hearlier := returns_taken limit done hbody hvs hnext.1 hnext.2 name params []
      rw [Statement.spellingList, Statement.spellingList, List.append_nil] at hws
      obtain ⟨r, xs, rfl, hr, hxs⟩ := hws.cons
      have hreturn := step_body limit done name params body (some r)
      refine ⟨xs, hxs, ?_⟩
      rw [List.reverse_reverse, List.append_nil, List.cons_append,
        run_cons_of_ok (hreturn.trans (if_pos (is_iff_key.mpr hr)))] at hearlier
      rw [hheader rest, List.append_assoc]
      exact hearlier

theorem endsInName_finish (function : String) (owner : Owner) :
    (owner.finish (.var function)).EndsInName := by
  cases owner with
  | expression => trivial
  | assignment target => trivial
  | returning name params body =>
      refine ⟨function, ?_⟩
      rw [List.reverse_cons, List.getLast?_concat]

theorem statement_taken {s : Statement} (hplaced : s.Placed) (hdistinct : s.Distinct)
    {ts : List Token} (hts : Spells ts s.spelling) (hrest : Follows rest)
    (hname : s.EndsInName → NotOpen rest) :
    Guarded (∀ e ∈ s.values, e.need ≤ limit) (run limit ⟨done, .start⟩ (ts ++ rest))
      (run limit ⟨s :: done, .start⟩ rest) := by
  rcases exists_finish hplaced with ⟨name, params, rfl⟩ | ⟨owner, e, rfl⟩
  · obtain ⟨us, hus, hheader⟩ := header_taken limit done hdistinct hts
    have hbody := step_body limit done name params [] rest.head?
    rw [hheader, hus.nil, List.nil_append, run_congr (hbody.trans (if_neg hrest.notReturn))]
    exact .refl (List.forall_mem_nil _) _
  · obtain ⟨us, hus, hreach⟩ := reach_value limit done hplaced hdistinct hts hrest.notEquals
    have hnotOpen : ∀ name, e = .var name → NotOpen rest := by
      rintro name rfl
      exact hname (endsInName_finish name owner)
    have hvalue := value_taken limit done owner hus hnotOpen
    rw [run_operand_finish hrest] at hvalue
    rw [Owner.values_finish]
    exact hreach.trans_append hvalue

/-! Statements that run together. -/

theorem called?_eq_some {argument : Expr} {s merged : Statement}
    (h : s.called? argument = some merged) : ∃ owner function,
      s = Owner.finish (.var function) owner ∧
        merged = Owner.finish (.call function [argument]) owner := by
  cases s with
  | assignment target value =>
      cases value with
      | var function =>
          cases h
          exact ⟨.assignment target, function, rfl, rfl⟩
      | _ => cases h
  | returning value => cases h
  | expression value =>
      cases value with
      | var function =>
          cases h
          exact ⟨.expression, function, rfl, rfl⟩
      | _ => cases h
  | definition name params body =>
      rw [Statement.called?] at h
      split at h
      · next function hlast =>
          cases h
          obtain ⟨earlier, rfl⟩ := List.getLast?_eq_some_iff.mp hlast
          refine ⟨.returning name params earlier.reverse, function, ?_, ?_⟩
          · simp [Owner.finish]
          · simp [Owner.finish]
      · cases h

theorem parenthesised?_eq_some {t : Statement} {e : Expr} (h : t.parenthesised? = some e) :
    t = .expression e ∧ Parenthesised e := by
  cases t with
  | expression value =>
      cases value with
      | unary op operand =>
          cases h
          exact ⟨rfl, .unary op operand⟩
      | binary op left right =>
          cases h
          exact ⟨rfl, .binary op left right⟩
      | _ => cases h
  | _ => cases h

/-- A name and an expression in parentheses are taken for a call, whose value is no deeper than
the expression. -/
theorem seam_taken {s t merged : Statement} (hplaced : s.Placed) (hdistinct : s.Distinct)
    (hmerged : t.parenthesised?.bind s.called? = some merged) {ts us : List Token}
    (hts : Spells ts s.spelling) (hus : Spells us t.spelling) (hrest : Follows rest) :
    Guarded (∀ e ∈ s.values ++ t.values, e.need ≤ limit)
      (run limit ⟨done, .start⟩ (ts ++ (us ++ rest)))
      (run limit ⟨merged :: done, .start⟩ rest) := by
  obtain ⟨argument, hargument, hcalled⟩ := Option.bind_eq_some_iff.mp hmerged
  obtain ⟨rfl, hparens⟩ := parenthesised?_eq_some hargument
  obtain ⟨owner, function, rfl, rfl⟩ := called?_eq_some hcalled
  have hequals : ¬ (us ++ rest).head?.any (·.is .operator "=") := by
    have hspells : Spells us argument.spelling := hus
    rw [hparens.spelling_eq] at hspells
    obtain ⟨o, vs, rfl, ho, _⟩ := hspells.cons
    intro hequals
    rw [List.cons_append, List.head?_cons, Option.any_some, is_iff_key, ho] at hequals
    exact absurd hequals (by decide)
  obtain ⟨vs, hvs, hreach⟩ := reach_value limit done hplaced hdistinct hts hequals
  obtain ⟨t, ws, rfl, ht, hws⟩ := hvs.cons
  have hcall := call_of_name_taken limit done owner hparens t hus rest
  rw [(Prod.mk.inj ht).2, run_operand_finish hrest] at hcall
  rw [hws.nil, List.cons_append, run_cons_of_ok (step_factor_of_name ht), List.nil_append]
    at hreach
  apply (hreach.trans fun _ => hcall).congr
  rw [Owner.values_finish, List.forall_mem_append, List.forall_mem_append]
  simp [Expr.need, Statement.values]

/-- A statement is taken whole where it does not run together with the next one. -/
theorem first_taken (limit : Nat) (done : List Statement) {s : Statement} {ss : List Statement}
    (hplaced : ∀ t ∈ s :: ss, t.Placed) (hdistinct : s.Distinct)
    (hgood : ∀ t ∈ ss.head?, ¬ BadSeam s t) {ts : List Token} (hts : Spells ts s.spelling)
    (hrest : Spells rest (Statement.spellingList ss)) :
    Guarded (∀ e ∈ s.values, e.need ≤ limit) (run limit ⟨done, .start⟩ (ts ++ rest))
      (run limit ⟨s :: done, .start⟩ rest) := by
  obtain ⟨hs, hss⟩ := List.forall_mem_cons.mp hplaced
  apply statement_taken hs hdistinct hts (follows_of_spells hss hrest)
  intro hends
  apply notOpen_of_spells hss _ hrest
  intro t ht hbegins
  exact hgood t ht ⟨hends, hbegins⟩

/-- What is written for statements is taken whole where their values fit, and is refused for its
depth where they do not. -/
theorem statements_taken (limit : Nat) (done : List Statement) {ss : List Statement}
    (hplaced : ∀ s ∈ ss, s.Placed) (hdistinct : ∀ s ∈ ss, s.Distinct) {ts : List Token}
    (hts : Spells ts (Statement.spellingList ss)) :
    Guarded (∀ e ∈ Statement.valuesList ss, e.need ≤ limit) (run limit ⟨done, .start⟩ ts)
      (.ok ⟨done.reverse ++ mergeSeams ss⟩) := by
  fun_induction mergeSeams ss generalizing ts done with
  | case1 s t ss merged hmerged ih =>
      obtain ⟨hs, hplaced⟩ := List.forall_mem_cons.mp hplaced
      obtain ⟨ht, hplaced⟩ := List.forall_mem_cons.mp hplaced
      obtain ⟨hs', hdistinct⟩ := List.forall_mem_cons.mp hdistinct
      obtain ⟨ht', hdistinct⟩ := List.forall_mem_cons.mp hdistinct
      obtain ⟨us, ws, rfl, hus, hws⟩ := hts.append
      obtain ⟨vs, rest, rfl, hvs, hrest⟩ := hws.append
      have hseam : Guarded (∀ e ∈ s.values ++ t.values, e.need ≤ limit)
          (run limit ⟨done, .start⟩ (us ++ (vs ++ rest)))
          (run limit ⟨merged :: done, .start⟩ rest) :=
        seam_taken hs hs' hmerged hus hvs (follows_of_spells hplaced hrest)
      have hmore := ih (merged :: done) hplaced hdistinct hrest
      rw [List.reverse_cons, List.append_assoc] at hmore
      rw [Statement.valuesList, Statement.valuesList, ← List.append_assoc]
      exact hseam.trans_append hmore
  | case2 s t ss hmerged ih =>
      obtain ⟨hs', hdistinct⟩ := List.forall_mem_cons.mp hdistinct
      obtain ⟨us, rest, rfl, hus, hrest⟩ := hts.append
      have hgood : ∀ u ∈ some t, ¬ BadSeam s u := by
        rintro _ ⟨⟩
        exact bind_called?_eq_none_iff.mp hmerged
      have hfirst := first_taken limit done hplaced hs' hgood hus hrest
      have hmore := ih (s :: done) (List.forall_mem_cons.mp hplaced).2 hdistinct hrest
      rw [List.reverse_cons, List.append_assoc] at hmore
      exact hfirst.trans_append hmore
  | case3 ss hshort =>
      cases ss with
      | nil =>
          rw [hts.nil, List.append_nil]
          exact .refl (List.forall_mem_nil _) _
      | cons s ss =>
          cases ss with
          | nil =>
              obtain ⟨us, rest, rfl, hus, hrest⟩ := hts.append
              have hs' := hdistinct s List.mem_cons_self
              have hlast := first_taken limit done hplaced hs' (by simp) hus hrest
              rw [hrest.nil] at hlast ⊢
              rw [Statement.valuesList, Statement.valuesList, List.append_nil,
                ← List.reverse_cons]
              exact hlast
          | cons t ss => exact absurd rfl (hshort s t ss)

end Machine

end ExprFront
