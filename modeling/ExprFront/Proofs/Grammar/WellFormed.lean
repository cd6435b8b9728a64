import ExprFront.Proofs.Grammar.Spelling

/-!
What comes out of a source is well-formed. The texts of its tokens are of their lexical classes, and
a derivation keeps them in the tree; where statements stand, and that parameters differ, is a matter
of the grammar alone.
-/

namespace ExprFront

namespace Grammar

variable {greedy : Prop} {n : Nat} {ts rest : List Token}

theorem Returns.isReturn {body : List Statement} (h : Returns greedy n ts body rest) :
    ∀ s ∈ body, s.IsReturn := by
  induction h with
  | nil _ => exact fun _ hs => absurd hs List.not_mem_nil
  | cons _ _ _ ih => exact List.forall_mem_cons.mpr ⟨trivial, ih⟩

theorem Stmt.placed {s : Statement} (h : Stmt greedy n ts s rest) : s.Placed := by
  cases h with
  | definition _ _ _ _ _ _ _ hbody => exact hbody.isReturn
  | assignment _ _ _ => trivial
  | expression _ _ => trivial

theorem Stmt.distinct {s : Statement} (h : Stmt greedy n ts s rest) : s.Distinct := by
  cases h with
  | definition _ _ _ _ hparams _ _ _ => exact hparams
  | assignment _ _ _ => trivial
  | expression _ _ => trivial

theorem Prog.forall_mem {ss : List Statement} (h : Prog greedy n ts ss)
    {good : Statement → Prop} (hgood : ∀ {ts s rest}, Stmt greedy n ts s rest → good s) :
    ∀ s ∈ ss, good s := by
  induction h with
  | nil => exact fun _ hs => absurd hs List.not_mem_nil
  | cons hs _ ih => exact List.forall_mem_cons.mpr ⟨hgood hs, ih⟩

end Grammar

namespace Program

/-- Tokens that have texts of their kinds are read as a well-formed program, if as any. -/
theorem wellFormed_of_ofTokens {ts : List Token} {p : Program} (h : ofTokens ts = .ok p)
    (hts : Grammar.Lexical ts) : p.WellFormed := by
  have hderives := ofTokensWithin_eq_ok_iff.mp h
  exact {
    spelled := hderives.spelled hts
    placed := hderives.forall_mem Grammar.Stmt.placed
    distinct := hderives.forall_mem Grammar.Stmt.distinct }

/-- Every program that is read from a source is well-formed: at any depth its names are words but
no keywords and its numbers have digits with or without a fraction, as they are marked; parameters
differ; and returns are all that bodies hold and stand nowhere else. -/
theorem wellFormed_of_ofSource {source : String} {p : Program} (h : ofSource source = .ok p) :
    p.WellFormed := by
  obtain ⟨ts, hts, hp⟩ := ofSource_eq_ok_iff.mp h
  exact wellFormed_of_ofTokens hp (Token.admits_of_listFrom hts)

theorem wellFormed_of_ofSource_area :
    let body : Expr := .binary .multiply (.number "3.14" true) (.call "square" [.var "r"])
    let p : Program :=
      ⟨[.definition "area" ["r", "d"] [.returning body],
        .assignment "x" (.unary .minus (.number "2" false))]⟩
    ofSource "def area(r, d): return 3.14 * square(r) x = -2" = .ok p ∧ p.WellFormed := by
  intro body p
  have h : ofSource "def area(r, d): return 3.14 * square(r) x = -2" = .ok p := by decide +kernel
  exact ⟨h, wellFormed_of_ofSource h⟩

end Program

end ExprFront
