import ExprFront.Proofs.Position

/-!
Places in machine words. Where a line or a column would be more than a word has room for, there is
no next place; as long as that does not happen, the words count what the numbers do. From the start
it does not happen in a text that is shorter than the last word.
-/

namespace ExprFront

/-- A place whose line and column are words of 64 bits. -/
structure WordPosition where
  line : UInt64
  column : UInt64
  deriving DecidableEq

/-- Whether a place can be given by words. -/
def Position.FitsWords (p : Position) : Prop :=
  p.line < UInt64.size ∧ p.column < UInt64.size

namespace WordPosition

def start : WordPosition := ⟨1, 1⟩

def toPosition (w : WordPosition) : Position := ⟨w.line.toNat, w.column.toNat⟩

/-- The word after another, unless that is the last. -/
def next? (n : UInt64) : Option UInt64 :=
  if n.toNat + 1 < UInt64.size then some (n + 1) else none

def step? (w : WordPosition) (c : Char) : Option WordPosition :=
  if c = '\n' then (next? w.line).map (⟨·, 1⟩) else (next? w.column).map (⟨w.line, ·⟩)

def advance? (w : WordPosition) (text : List Char) : Option WordPosition :=
  text.foldlM step? w

variable {w v : WordPosition}

theorem next?_eq_some_iff {n m : UInt64} : next? n = some m ↔ m.toNat = n.toNat + 1 := by
  have hm : m.toNat < UInt64.size := m.toNat_lt
  rw [next?]
  by_cases h : n.toNat + 1 < UInt64.size
  · have hnext : (n + 1).toNat = n.toNat + 1 := by
      rw [UInt64.toNat_add, UInt64.toNat_one, Nat.mod_eq_of_lt h]
    rw [if_pos h, Option.some_inj, ← UInt64.toNat_inj, hnext, eq_comm]
  · rw [if_neg h]
    constructor
    · intro hnone
      cases hnone
    · omega

theorem toPosition_inj : w.toPosition = v.toPosition ↔ w = v := by
  cases w
  cases v
  simp [toPosition, UInt64.toNat_inj]

theorem fitsWords_toPosition (w : WordPosition) : w.toPosition.FitsWords :=
  ⟨w.line.toNat_lt, w.column.toNat_lt⟩

theorem exists_of_fitsWords {p : Position} (h : p.FitsWords) :
    ∃ w : WordPosition, w.toPosition = p :=
  ⟨⟨.ofNat p.line, .ofNat p.column⟩, Position.ext (UInt64.toNat_ofNat_of_lt' h.1)
    (UInt64.toNat_ofNat_of_lt' h.2)⟩

/-- There is a next place exactly where words have room for it. -/
theorem step?_eq_some_iff {c : Char} :
    w.step? c = some v ↔ v.toPosition = w.toPosition.step c := by
  rw [step?, Position.ext_iff]
  by_cases hc : c = '\n'
  · subst hc
    rw [if_pos rfl, Position.step_newline, Option.map_eq_some_iff]
    constructor
    · rintro ⟨line, hline, rfl⟩
      exact ⟨next?_eq_some_iff.mp hline, rfl⟩
    · rintro ⟨hline, hcolumn⟩
      refine ⟨v.line, next?_eq_some_iff.mpr hline, ?_⟩
      rw [← toPosition_inj]
      exact Position.ext rfl hcolumn.symm
  · rw [if_neg hc, Position.step_of_ne hc, Option.map_eq_some_iff]
    constructor
    · rintro ⟨column, hcolumn, rfl⟩
      exact ⟨rfl, next?_eq_some_iff.mp hcolumn⟩
    · rintro ⟨hline, hcolumn⟩
      refine ⟨v.column, next?_eq_some_iff.mpr hcolumn, ?_⟩
      rw [← toPosition_inj]
      exact Position.ext hline.symm rfl

theorem advance?_cons (w : WordPosition) (c : Char) (text : List Char) :
    w.advance? (c :: text) = (w.step? c).bind fun v => v.advance? text :=
  List.foldlM_cons

theorem advance?_append (w : WordPosition) (a b : List Char) :
    w.advance? (a ++ b) = (w.advance? a).bind fun v => v.advance? b :=
  List.foldlM_append

theorem toPosition_of_advance? {text : List Char} (h : w.advance? text = some v) :
    v.toPosition = w.toPosition.advance text := by
  induction text generalizing w with
  | nil =>
      cases h
      rfl
  | cons c text ih =>
      rw [advance?_cons, Option.bind_eq_some_iff] at h
      obtain ⟨u, hstep, hlater⟩ := h
      rw [ih hlater, step?_eq_some_iff.mp hstep, Position.advance_cons]

/-- Words count a text exactly where they have room for every place on the way. -/
theorem exists_advance?_iff {text : List Char} :
    (∃ v, w.advance? text = some v) ↔
      ∀ front, front <+: text → (w.toPosition.advance front).FitsWords := by
  constructor
  · rintro ⟨v, hv⟩ front ⟨rest, rfl⟩
    rw [advance?_append, Option.bind_eq_some_iff] at hv
    obtain ⟨u, hu, _⟩ := hv
    rw [← toPosition_of_advance? hu]
    exact u.fitsWords_toPosition
  · intro h
    induction text generalizing w with
    | nil => exact ⟨w, rfl⟩
    | cons c text ih =>
        obtain ⟨u, hu⟩ := exists_of_fitsWords (h [c] (List.prefix_append [c] text))
        rw [advance?_cons, step?_eq_some_iff.mpr hu]
        apply ih
        intro front hfront
        rw [hu]
        exact h (c :: front) (List.cons_prefix_cons.mpr ⟨rfl, hfront⟩)

end WordPosition

namespace Position

theorem length_lastLine_le (text : List Char) : (lastLine text).length ≤ text.length := by
  have hle := (List.takeWhile_prefix (l := text.reverse) (· ≠ '\n')).length_le
  rw [List.length_reverse] at hle
  rw [lastLine, List.length_reverse]
  exact hle

theorem start_advance_le (text : List Char) :
    (start.advance text).line ≤ 1 + text.length ∧
      (start.advance text).column ≤ 1 + text.length := by
  rw [start_advance]
  exact ⟨Nat.add_le_add_left List.count_le_length 1,
    Nat.add_le_add_left (length_lastLine_le text) 1⟩

theorem fitsWords_start_advance {text : List Char} (h : text.length < UInt64.size - 1) :
    (start.advance text).FitsWords := by
  obtain ⟨hline, hcolumn⟩ := start_advance_le text
  exact ⟨by omega, by omega⟩

/-- Texts act on places: one text and then another is both as one. A newline begins a line, and
what stands behind the last one fills columns; a text that is not empty leads to a later place.
From the start, no line and no column is further than the text is long, so that words have room for
both in any text shorter than the last word; and wherever words have room, they count the same. -/
theorem advance_monotone_action (p : Position) (w : WordPosition) (a b : List Char) :
    p.advance (a ++ b) = (p.advance a).advance b ∧
    (p.advance a).line = p.line + a.count '\n' ∧
    ('\n' ∉ a → (p.advance a).column = p.column + a.length) ∧
    (∀ before last, a = before ++ '\n' :: last → '\n' ∉ last →
      (p.advance a).column = 1 + last.length) ∧
    (a ≠ [] → p < p.advance a) ∧
    (start.advance a).line ≤ 1 + a.length ∧ (start.advance a).column ≤ 1 + a.length ∧
    (a.length < UInt64.size - 1 →
      ∃ v, WordPosition.start.advance? a = some v ∧ v.toPosition = start.advance a) ∧
    w.advance? (a ++ b) = (w.advance? a).bind (·.advance? b) ∧
    ∀ v, w.advance? a = some v → v.toPosition = w.toPosition.advance a := by
  refine ⟨advance_append p a b, advance_line p a, advance_column_of_not_mem p, ?_, lt_advance p,
    (start_advance_le a).1, (start_advance_le a).2, ?_, w.advance?_append a b,
    fun v => WordPosition.toPosition_of_advance?⟩
  · rintro before last rfl hlast
    rw [advance_column_of_mem p (List.mem_append_right _ List.mem_cons_self),
      lastLine_append_newline hlast]
  · intro hlength
    have hfits : ∀ front, front <+: a →
        (WordPosition.start.toPosition.advance front).FitsWords := by
      intro front hfront
      exact fitsWords_start_advance (Nat.lt_of_le_of_lt hfront.length_le hlength)
    obtain ⟨v, hv⟩ := WordPosition.exists_advance?_iff.mpr hfits
    exact ⟨v, hv, WordPosition.toPosition_of_advance? hv⟩

/-- One column before the last that a word has room for. -/
def nearLastColumn : WordPosition := ⟨3, 18446744073709551614⟩

theorem advance_monotone_action_nearLastColumn :
    ('\n' ∉ ['é', '\t'] ∧ (advance ⟨3, 7⟩ ['é', '\t']).column = 9) ∧
    ('\n' ∉ ['c', 'd'] ∧ (advance ⟨3, 7⟩ ['a', '\n', 'c', 'd']).column = 3) ∧
    (['a', '\n', 'c', 'd'] ≠ [] ∧ (⟨3, 7⟩ : Position) < ⟨4, 3⟩) ∧
    (['a', '\n', 'c', 'd'].length < UInt64.size - 1 ∧
      ∃ v, WordPosition.start.advance? ['a', '\n', 'c', 'd'] = some v ∧ v.toPosition = ⟨2, 3⟩) ∧
    nearLastColumn.advance? ['a', '\n', 'c', 'd'] = some ⟨4, 3⟩ ∧
    WordPosition.toPosition ⟨4, 3⟩ = nearLastColumn.toPosition.advance ['a', '\n', 'c', 'd'] := by
  have hplain : '\n' ∉ ['é', '\t'] := by decide
  have hlast : '\n' ∉ ['c', 'd'] := by decide
  have hlength : ['a', '\n', 'c', 'd'].length < UInt64.size - 1 := by decide
  have hwords : nearLastColumn.advance? ['a', '\n', 'c', 'd'] = some ⟨4, 3⟩ := by decide
  obtain ⟨_, _, hcolumn, _⟩ := advance_monotone_action ⟨3, 7⟩ .start ['é', '\t'] []
  obtain ⟨_, _, _, hlines, hlater, _, _, hstart, _, hcounts⟩ :=
    advance_monotone_action ⟨3, 7⟩ nearLastColumn ['a', '\n', 'c', 'd'] []
  exact ⟨⟨hplain, hcolumn hplain⟩, ⟨hlast, hlines ['a'] ['c', 'd'] rfl hlast⟩,
    ⟨List.cons_ne_nil _ _, hlater (List.cons_ne_nil _ _)⟩, ⟨hlength, hstart hlength⟩, hwords,
    hcounts _ hwords⟩

end Position

end ExprFront
