import ExprFront.Proofs.Grammar.Spelling
import ExprFront.Proofs.Machine.SpelledStatements

/-!
The written form of a well-formed program, read back. It is refused for its depth if some value
needs more levels than there are, and is read as a program otherwise: the one that was written,
unless two statements run together.
-/

namespace ExprFront

namespace Program

/-- A well-formed program is read back from its written form if and only if none of its values
needs too many levels and no two of its statements run together. Where statements run together, the
program with calls in their place is read; where a value needs too many levels, the written form is
refused at a token for its depth. -/
theorem ofSource_render {p : Program} (h : p.WellFormed) :
    (ofSource p.render = .ok p ↔ p.Fits maxNesting ∧ ¬ HasBadSeam p.statements) ∧
      (p.Fits maxNesting → ofSource p.render = .ok p.reread) ∧
      (¬ p.Fits maxNesting →
        ∃ t : Token, ofSource p.render = .error (.parse ⟨t, .shallowerExpression⟩)) := by
  obtain ⟨ts, hts, hkeys⟩ := lexes_render h.spelled .start
  have htokens : ofSource p.render = (ofTokens ts).mapError .parse := ofSource_of_tokens hts
  have hread : Machine.Guarded (p.Fits maxNesting) (ofTokens ts) (.ok p.reread) := by
    rw [ofTokens, Machine.ofTokensWithin_eq_run]
    exact Machine.statements_taken maxNesting [] h.placed h.distinct hkeys
  have hfits (hp : p.Fits maxNesting) : ofSource p.render = .ok p.reread := by
    rw [htokens, hread.1 hp]
    rfl
  have hdeep (hp : ¬ p.Fits maxNesting) :
      ∃ t : Token, ofSource p.render = .error (.parse ⟨t, .shallowerExpression⟩) := by
    obtain ⟨t, ht⟩ := hread.2 hp
    refine ⟨t, ?_⟩
    rw [htokens, ht]
    rfl
  refine ⟨?_, hfits, hdeep⟩
  constructor
  · intro hp
    have hp' : p.Fits maxNesting := by
      apply Classical.byContradiction
      intro hnot
      obtain ⟨t, ht⟩ := hdeep hnot
      rw [ht] at hp
      cases hp
    rw [hfits hp', Except.ok.injEq] at hp
    exact ⟨hp', mergeSeams_eq_self_iff.mp (congrArg statements hp)⟩
  · intro hfit
    obtain ⟨hp, hseams⟩ := hfit
    rw [hfits hp, reread, mergeSeams_eq_self_iff.mpr hseams]

/-- A definition, an assignment and an expression in parentheses, none of which run together. -/
theorem ofSource_render_scaled :
    let p : Program :=
      ⟨[.definition "scale" ["x", "k"] [.returning (.binary .multiply (.var "x") (.var "k"))],
        .assignment "y" (.call "scale" [.number "2" false, .number "0.5" true]),
        .expression (.unary .minus (.var "y"))]⟩
    p.WellFormed ∧ ofSource p.render = .ok p := by
  intro p
  have hword : ∀ text ∈ ["scale", "x", "k", "y"], Token.Kind.identifier.Admits text := by
    change ∀ text ∈ ["scale", "x", "k", "y"], IsWord text.toList ∧ text ∉ Token.keywords
    decide
  have hhalf : Token.Kind.float.Admits "0.5" :=
    ⟨['0'], ['5'], by decide, by decide, by decide⟩
  have htwo : Token.Kind.integer.Admits "2" := by
    change IsDigits "2".toList
    decide
  have h : p.WellFormed := {
    spelled := by
      simp [p, Statement.SpelledList, Statement.Spelled, Expr.Spelled, Expr.SpelledList,
        Expr.numberKind, hword, hhalf, htwo]
    placed := by simp [p, Statement.Placed, Statement.IsReturn]
    distinct := by simp [p, Statement.Distinct] }
  have hfits : p.Fits maxNesting := by
    simp [p, Fits, Statement.valuesList, Statement.values, Expr.need, Expr.needList, maxNesting]
  have hseams : ¬ HasBadSeam p.statements := mergeSeams_eq_self_iff.mp rfl
  exact ⟨h, (ofSource_render h).1.mpr ⟨hfits, hseams⟩⟩

example : ofSource (Program.render ⟨[.expression (.var "f"),
      .expression (.unary .minus (.var "x"))]⟩) =
    .ok ⟨[.expression (.call "f" [.unary .minus (.var "x")])]⟩ := by
  decide +kernel

end Program

end ExprFront
