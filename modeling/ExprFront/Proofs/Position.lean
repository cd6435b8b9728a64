import ExprFront.Position

/-!
Where a text leads to: the line is given by its newlines, and the column by what stands after the
last of them. A reader who goes on always comes to a later place.
-/

namespace ExprFront.Position

/-- The characters of a text after its last newline. -/
def lastLine (text : List Char) : List Char :=
  (text.reverse.takeWhile (· ≠ '\n')).reverse

/-- The place after a text: its newlines begin lines, and the characters on its last line fill
columns. -/
def after (text : List Char) : Position :=
  ⟨1 + text.count '\n', 1 + (lastLine text).length⟩

theorem ne_newline_of_not_mem {text : List Char} (h : '\n' ∉ text) :
    ∀ c ∈ text.reverse, decide (c ≠ '\n') = true := by
  intro c hc
  rw [decide_eq_true_iff]
  rintro rfl
  exact h (List.mem_reverse.mp hc)

theorem lastLine_of_not_mem {text : List Char} (h : '\n' ∉ text) : lastLine text = text := by
  rw [lastLine, ← List.append_nil text.reverse,
    List.takeWhile_append_of_pos (ne_newline_of_not_mem h), List.takeWhile_nil, List.append_nil,
    List.reverse_reverse]

theorem lastLine_append_newline {text : List Char} (h : '\n' ∉ text) (before : List Char) :
    lastLine (before ++ '\n' :: text) = text := by
  rw [lastLine, List.reverse_append, List.reverse_cons, List.append_assoc,
    List.takeWhile_append_of_pos (ne_newline_of_not_mem h), List.singleton_append,
    List.takeWhile_cons_of_neg (by simp), List.append_nil, List.reverse_reverse]

theorem exists_last_newline {text : List Char} (h : '\n' ∈ text) :
    ∃ before after, text = before ++ '\n' :: after ∧ '\n' ∉ after := by
  obtain ⟨after, before, htext, hafter⟩ := List.eq_append_cons_of_mem (List.mem_reverse.mpr h)
  refine ⟨before.reverse, after.reverse, ?_, by simpa using hafter⟩
  rw [← List.reverse_reverse text, htext]
  simp

theorem step_newline (p : Position) : p.step '\n' = ⟨p.line + 1, 1⟩ := rfl

theorem step_of_ne {c : Char} (h : c ≠ '\n') (p : Position) :
    p.step c = ⟨p.line, p.column + 1⟩ :=
  if_neg h

theorem advance_line (p : Position) (text : List Char) :
    (p.advance text).line = p.line + text.count '\n' := by
  induction text generalizing p with
  | nil => rfl
  | cons c text ih =>
      rw [advance_cons, ih, List.count_cons]
      by_cases hc : c = '\n'
      · subst hc
        rw [step_newline]
        simp
        omega
      · rw [step_of_ne hc]
        simp [hc]

theorem advance_column_of_not_mem (p : Position) {text : List Char} (h : '\n' ∉ text) :
    (p.advance text).column = p.column + text.length := by
  induction text generalizing p with
  | nil => rfl
  | cons c text ih =>
      rw [List.mem_cons, not_or] at h
      rw [advance_cons, ih _ h.2, step_of_ne (Ne.symm h.1), List.length_cons]
      simp only
      omega

theorem advance_column_of_mem (p : Position) {text : List Char} (h : '\n' ∈ text) :
    (p.advance text).column = 1 + (lastLine text).length := by
  obtain ⟨before, after, rfl, hafter⟩ := exists_last_newline h
  rw [advance_append, advance_cons, step_newline, advance_column_of_not_mem _ hafter,
    lastLine_append_newline hafter]

theorem start_advance (text : List Char) : start.advance text = after text := by
  apply Position.ext
  · exact advance_line start text
  · by_cases h : '\n' ∈ text
    · exact advance_column_of_mem start h
    · rw [advance_column_of_not_mem start h, after, lastLine_of_not_mem h]
      rfl

/-! Later places. -/

theorem lt_trans {a b c : Position} (hab : a < b) (hbc : b < c) : a < c := by
  rw [lt_iff] at hab hbc ⊢
  omega

theorem lt_irrefl (p : Position) : ¬ p < p := by
  rw [lt_iff]
  omega

theorem le_iff {a b : Position} : a ≤ b ↔ a < b ∨ a = b := by
  have heq : compare a b = .eq ↔ a = b := by
    change (compare a.line b.line).then (compare a.column b.column) = .eq ↔ _
    rw [Ordering.then_eq_eq, Nat.compare_eq_eq, Nat.compare_eq_eq, Position.ext_iff]
  change (compare a b).isLE ↔ compare a b = .lt ∨ a = b
  rw [← heq, Ordering.isLE_iff_eq_lt_or_eq_eq]

theorem le_refl (p : Position) : p ≤ p :=
  le_iff.mpr (.inr rfl)

theorem lt_of_lt_of_le {a b c : Position} (hab : a < b) (hbc : b ≤ c) : a < c := by
  rcases le_iff.mp hbc with hlt | rfl
  · exact lt_trans hab hlt
  · exact hab

theorem le_trans {a b c : Position} (hab : a ≤ b) (hbc : b ≤ c) : a ≤ c := by
  rcases le_iff.mp hab with hlt | rfl
  · exact le_iff.mpr (.inl (lt_of_lt_of_le hlt hbc))
  · exact hbc

theorem lt_step (p : Position) (c : Char) : p < p.step c := by
  rw [lt_iff]
  by_cases hc : c = '\n'
  · subst hc
    simp [step_newline]
  · simp [step_of_ne hc]

theorem le_advance (p : Position) (text : List Char) : p ≤ p.advance text := by
  induction text generalizing p with
  | nil => exact le_refl p
  | cons c text ih => exact le_iff.mpr (.inl (lt_of_lt_of_le (lt_step p c) (ih _)))

theorem lt_advance (p : Position) {text : List Char} (h : text ≠ []) : p < p.advance text := by
  cases text with
  | nil => exact absurd rfl h
  | cons c text => exact lt_of_lt_of_le (lt_step p c) (le_advance _ text)

end ExprFront.Position
