import ExprFront.Proofs.WellFormed

/-!
What stands between a program and its written form read back: the levels that the written form
opens, and the seams at which two statements run together. Written one after the other, a
statement that ends in a name and one in parentheses are read as a call.
-/

namespace ExprFront

/-! Levels. -/

mutual

/-- The levels that the written form of an expression opens at once. -/
def Expr.need : Expr → Nat
  | .number _ _ => 0
  | .var _ => 0
  | .unary _ operand => 2 + operand.need
  | .binary _ left right => 1 + max left.need right.need
  | .call _ args => 1 + Expr.needList args

def Expr.needList : List Expr → Nat
  | [] => 0
  | e :: es => max e.need (Expr.needList es)

end

mutual

/-- The expressions that are the values of a statement, or of the statements in its body. -/
def Statement.values : Statement → List Expr
  | .assignment _ value => [value]
  | .definition _ _ body => Statement.valuesList body
  | .returning value => [value]
  | .expression value => [value]

def Statement.valuesList : List Statement → List Expr
  | [] => []
  | s :: ss => s.values ++ Statement.valuesList ss

end

/-- The written form of a program has no more than this many levels open at once. -/
def Program.Fits (limit : Nat) (p : Program) : Prop :=
  ∀ e ∈ Statement.valuesList p.statements, e.need ≤ limit

/-! Seams. -/

/-- The last token of the written form is a name that stands for a variable. -/
def Statement.EndsInName : Statement → Prop
  | .expression (.var _) => True
  | .assignment _ (.var _) => True
  | .definition _ _ body => ∃ name, body.getLast? = some (.returning (.var name))
  | _ => False

/-- The written form begins with a parenthesis. -/
def Statement.BeginsInParenthesis : Statement → Prop
  | .expression (.unary _ _) => True
  | .expression (.binary _ _ _) => True
  | _ => False

def BadSeam (s t : Statement) : Prop :=
  s.EndsInName ∧ t.BeginsInParenthesis

/-- Some two statements in a row run together. -/
def HasBadSeam (ss : List Statement) : Prop :=
  ∃ i s t, ss[i]? = some s ∧ ss[i + 1]? = some t ∧ BadSeam s t

/-- A statement with the name that it ends in called with an argument. -/
def Statement.called? (argument : Expr) : Statement → Option Statement
  | .expression (.var function) => some (.expression (.call function [argument]))
  | .assignment target (.var function) => some (.assignment target (.call function [argument]))
  | .definition name params body =>
      match body.getLast? with
      | some (.returning (.var function)) =>
          some (.definition name params
            (body.dropLast ++ [.returning (.call function [argument])]))
      | _ => none
  | _ => none

def Statement.parenthesised? : Statement → Option Expr
  | .expression (.unary op operand) => some (.unary op operand)
  | .expression (.binary op left right) => some (.binary op left right)
  | _ => none

/-- The statements that are read where these are written: at a bad seam two become one. -/
def mergeSeams : List Statement → List Statement
  | s :: t :: ss =>
      match t.parenthesised?.bind s.called? with
      | some merged => merged :: mergeSeams ss
      | none => s :: mergeSeams (t :: ss)
  | ss => ss

def Program.reread (p : Program) : Program :=
  ⟨mergeSeams p.statements⟩

theorem Statement.called?_eq_none_iff {argument : Expr} {s : Statement} :
    s.called? argument = none ↔ ¬ s.EndsInName := by
  cases s with
  | assignment target value => cases value <;> simp [called?, EndsInName]
  | returning value => simp [called?, EndsInName]
  | expression value => cases value <;> simp [called?, EndsInName]
  | definition name params body =>
      rw [called?, EndsInName]
      split
      · next function h => simp [h]
      · next h =>
          constructor
          · intro _ hends
            obtain ⟨function, hlast⟩ := hends
            exact h function hlast
          · intro _
            rfl

theorem Statement.parenthesised?_eq_none_iff {t : Statement} :
    t.parenthesised? = none ↔ ¬ t.BeginsInParenthesis := by
  cases t with
  | assignment target value => simp [parenthesised?, BeginsInParenthesis]
  | returning value => simp [parenthesised?, BeginsInParenthesis]
  | expression value => cases value <;> simp [parenthesised?, BeginsInParenthesis]
  | definition name params body => simp [parenthesised?, BeginsInParenthesis]

theorem bind_called?_eq_none_iff {s t : Statement} :
    t.parenthesised?.bind s.called? = none ↔ ¬ BadSeam s t := by
  cases h : t.parenthesised? with
  | none =>
      have hbegins := Statement.parenthesised?_eq_none_iff.mp h
      simp [BadSeam, hbegins]
  | some e =>
      have hbegins : t.BeginsInParenthesis := by
        apply Classical.byContradiction
        intro hnot
        rw [Statement.parenthesised?_eq_none_iff.mpr hnot] at h
        cases h
      rw [Option.bind_some, Statement.called?_eq_none_iff, BadSeam]
      simp [hbegins]

theorem hasBadSeam_cons_cons {s t : Statement} {ss : List Statement} :
    HasBadSeam (s :: t :: ss) ↔ BadSeam s t ∨ HasBadSeam (t :: ss) := by
  constructor
  · intro hseam
    obtain ⟨i, a, b, ha, hb, hbad⟩ := hseam
    cases i with
    | zero =>
        cases ha
        cases hb
        exact .inl hbad
    | succ i => exact .inr ⟨i, a, b, ha, hb, hbad⟩
  · intro hseam
    rcases hseam with hbad | ⟨i, a, b, ha, hb, hbad⟩
    · exact ⟨0, s, t, rfl, rfl, hbad⟩
    · exact ⟨i + 1, a, b, ha, hb, hbad⟩

theorem length_mergeSeams_le (ss : List Statement) : (mergeSeams ss).length ≤ ss.length := by
  fun_induction mergeSeams ss with
  | case1 s t ss merged _ ih =>
      simp only [List.length_cons]
      omega
  | case2 s t ss _ ih =>
      simp only [List.length_cons] at ih ⊢
      omega
  | case3 ss => exact Nat.le_refl _

/-- A program is read back as it was written if and only if no two statements run together. -/
theorem mergeSeams_eq_self_iff {ss : List Statement} : mergeSeams ss = ss ↔ ¬ HasBadSeam ss := by
  fun_induction mergeSeams ss with
  | case1 s t ss merged h ih =>
      have hbad : BadSeam s t := by
        apply Classical.byContradiction
        intro hnot
        rw [bind_called?_eq_none_iff.mpr hnot] at h
        cases h
      constructor
      · intro heq
        have hlength := congrArg List.length heq
        have hle := length_mergeSeams_le ss
        simp only [List.length_cons] at hlength
        omega
      · intro hnone
        exact absurd (hasBadSeam_cons_cons.mpr (.inl hbad)) hnone
  | case2 s t ss h ih =>
      have hgood := bind_called?_eq_none_iff.mp h
      rw [hasBadSeam_cons_cons, not_or, List.cons.injEq, ih]
      simp [hgood]
  | case3 ss hshort =>
      constructor
      · intro _ hseam
        obtain ⟨i, s, t, hs, ht, _⟩ := hseam
        cases ss with
        | nil => cases hs
        | cons a ss =>
            cases ss with
            | nil => cases ht
            | cons b ss => exact hshort a b ss rfl
      · intro _
        rfl

end ExprFront
