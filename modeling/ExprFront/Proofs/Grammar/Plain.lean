import ExprFront.Proofs.Grammar

/-!
The plain grammar asks less: what derives greedily derives there too. And where a statement begins,
neither an `=` nor a `return` stands, so the plain grammar, too, tells an assignment by its sign and
goes on with a body at every `return`.
-/

namespace ExprFront.Grammar

variable {greedy : Prop}

mutual

theorem Factor.plain : Factor greedy n ts e rest → Factor False n ts e rest
  | .integer hkind => .integer hkind
  | .float hkind => .float hkind
  | .var hkind _ => .var hkind False.elim
  | .call hkind hu hes hv => .call hkind hu hes.plain hv
  | .unary hkind htext he => .unary hkind htext he.plain
  | .parens ht he hv => .parens ht he.plain hv

theorem Products.plain : Products greedy n ts others rest → Products False n ts others rest
  | .nil _ => .nil False.elim
  | .cons hmem hsign he hothers => .cons hmem hsign he.plain hothers.plain

theorem Term.plain : Term greedy n ts e rest → Term False n ts e rest
  | .mk hfirst hothers => .mk hfirst.plain hothers.plain

theorem Sums.plain : Sums greedy n ts others rest → Sums False n ts others rest
  | .nil _ => .nil False.elim
  | .cons hmem hsign he hothers => .cons hmem hsign he.plain hothers.plain

theorem Expression.plain : Expression greedy n ts e rest → Expression False n ts e rest
  | .mk hfirst hothers => .mk hfirst.plain hothers.plain

theorem Arguments.plain : Arguments greedy n ts es rest → Arguments False n ts es rest
  | .none => .none
  | .some he hes => .some he.plain hes.plain

theorem MoreArguments.plain : MoreArguments greedy n ts es rest → MoreArguments False n ts es rest
  | .nil => .nil
  | .cons ht he hes => .cons ht he.plain hes.plain

end

theorem Returns.plain (h : Returns greedy n ts body rest) : Returns False n ts body rest := by
  induction h with
  | nil _ => exact .nil False.elim
  | cons ht he _ ih => exact .cons ht he.plain ih

theorem Stmt.plain (h : Stmt greedy n ts s rest) : Stmt False n ts s rest := by
  cases h with
  | definition ht hname hu hparams hnodup hv hw hbody =>
      exact .definition ht hname hu hparams hnodup hv hw hbody.plain
  | assignment hkind ht he => exact .assignment hkind ht he.plain
  | expression _ he => exact .expression False.elim he.plain

theorem Prog.plain (h : Prog greedy n ts ss) : Prog False n ts ss := by
  induction h with
  | nil => exact .nil
  | cons hs _ ih => exact .cons hs.plain ih

/-! What a statement does not begin with. -/

theorem not_sign_of_equals {t : Token} (ht : t.is .operator "=") (op : BinaryOp) : ¬ Sign op t := by
  intro hsign
  rw [Token.is_iff] at ht
  have htext := hsign.2.symm.trans ht.2
  cases op <;> exact absurd htext (by decide)

theorem StartsFactor.not_equals {t : Token} (h : StartsFactor t) : ¬ t.is .operator "=" := by
  rw [Token.is_iff]
  rintro ⟨hkind, htext⟩
  rcases h with h | h | h | ⟨_, op, h⟩ | h
  · simp [hkind] at h
  · simp [hkind] at h
  · simp [hkind] at h
  · rw [htext] at h
    cases op <;> exact absurd h (by decide)
  · simp [Token.is_iff, htext] at h

theorem Expression.not_equals (h : Expression greedy n ts e rest) :
    ¬ Next (·.is .operator "=") ts := by
  rintro ⟨t, ht, hequals⟩
  obtain ⟨u, hu, hstart⟩ := h.starts
  rw [ht] at hu
  cases hu
  exact hstart.not_equals hequals

theorem Expression.not_return (h : Expression greedy n ts e rest) :
    ¬ Next (·.is .keyword "return") ts := by
  rintro ⟨t, ht, hreturn⟩
  obtain ⟨u, hu, hstart⟩ := h.starts
  rw [ht] at hu
  cases hu
  exact hstart.not_keyword (Token.is_iff.mp hreturn).1

theorem Stmt.not_equals (h : Stmt greedy n ts s rest) : ¬ Next (·.is .operator "=") ts := by
  cases h with
  | definition ht _ _ _ _ _ _ _ =>
      rw [Token.is_iff] at ht
      simp [Token.is_iff, ht.1]
  | assignment hkind _ _ => simp [Token.is_iff, hkind]
  | expression _ he => exact he.not_equals

theorem Stmt.not_return (h : Stmt greedy n ts s rest) : ¬ Next (·.is .keyword "return") ts := by
  cases h with
  | definition ht _ _ _ _ _ _ _ =>
      rw [Token.is_iff] at ht
      simp [Token.is_iff, ht.2]
  | assignment hkind _ _ => simp [Token.is_iff, hkind]
  | expression _ he => exact he.not_return

theorem Prog.not_equals (h : Prog greedy n ts ss) : ¬ Next (·.is .operator "=") ts := by
  cases h with
  | nil => exact not_next_nil _
  | cons hs _ => exact hs.not_equals

theorem Prog.not_return (h : Prog greedy n ts ss) : ¬ Next (·.is .keyword "return") ts := by
  cases h with
  | nil => exact not_next_nil _
  | cons hs _ => exact hs.not_return

theorem Products.eq_of_equals {u : Token} (h : Products greedy n (u :: us) others rest)
    (hu : u.is .operator "=") : rest = u :: us := by
  cases h with
  | nil _ => rfl
  | cons _ hsign _ _ => exact absurd hsign (not_sign_of_equals hu _)

theorem Sums.eq_of_equals {u : Token} (h : Sums greedy n (u :: us) others rest)
    (hu : u.is .operator "=") : rest = u :: us := by
  cases h with
  | nil _ => rfl
  | cons _ hsign _ _ => exact absurd hsign (not_sign_of_equals hu _)

/-- An expression that nothing but an `=` could follow is no assignment. -/
theorem Expression.not_startsAssignment (h : Expression greedy n ts e rest)
    (hrest : ¬ Next (·.is .operator "=") rest) : ¬ StartsAssignment ts := by
  rintro ⟨t, u, us, rfl, hkind, hu⟩
  obtain ⟨⟨hfirst, hproducts⟩, hsums⟩ := h
  cases hfirst with
  | integer h => simp [hkind] at h
  | float h => simp [hkind] at h
  | var _ _ =>
      obtain rfl := hproducts.eq_of_equals hu
      obtain rfl := hsums.eq_of_equals hu
      exact hrest ((next_cons _ _ _).mpr hu)
  | call _ hopen _ _ =>
      rw [Token.is_iff] at hu hopen
      simp [hu.1] at hopen
  | unary h _ _ => simp [hkind] at h
  | parens h _ _ => simp [Token.is_iff, hkind] at h

end ExprFront.Grammar
