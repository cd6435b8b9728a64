import ExprFront.Proofs.Slices

/-!
The lexical rules by lengths in bytes. Each counts characters or bytes, or searches for a byte, and
the text is cut where the count ends; what it comes to is what the rule takes.
-/

namespace ExprFront

open Text

namespace Rule

/-- Whether a number that takes so many bytes runs into a word. -/
def gluedToWord (s : String) (n : Nat) : Except BadSlice Bool := do
  let rest ← sliceFrom s n
  return startsWord rest.toList

def measureWord (s : String) : Option Nat :=
  match s.toList with
  | [] => none
  | c :: cs => if isWordStart c then some (1 + (cs.takeWhile isWordChar).length) else none

def measureKeyword (s : String) : Except BadSlice (Option Nat) :=
  match measureWord s with
  | none => return none
  | some n => do
      let text ← sliceTo s n
      return if text ∈ Token.keywords then some n else none

/-- Whether a point and a digit come first. -/
def opensFraction (s : String) : Except BadSlice Bool :=
  if s.toList.head? = some '.' then do
    let part ← sliceFrom s 1
    return 0 < digitRun part
  else return false

def measureInteger (s : String) : Except BadSlice (Option Nat) :=
  let whole := digitRun s
  if whole = 0 then return none
  else do
    let glued ← gluedToWord s whole
    if glued then return none
    else
      let tail ← sliceFrom s whole
      let float ← opensFraction tail
      return if float then none else some whole

def measureFloat (s : String) : Except BadSlice (Option Nat) :=
  let whole := digitRun s
  if whole = 0 then return none
  else do
    let tail ← sliceFrom s whole
    if tail.toList.head? = some '.' then
      let part ← sliceFrom s (whole + 1)
      if digitRun part = 0 then return none
      else
        let glued ← gluedToWord s (whole + 1 + digitRun part)
        return if glued then none else some (whole + 1 + digitRun part)
    else return none

def measureString (s : String) : Option Nat :=
  if s.toList.head? = some '"' then (find? '"' (String.ofList s.toList.tail)).map (· + 2) else none

def measureOperator (s : String) : Option Nat :=
  (Token.operators.find? fun op => op.toList.isPrefixOf s.toList).map String.utf8ByteSize

def measurePunctuation (s : String) : Option Nat :=
  (s.toList.head?.filter (· ∈ Token.punctuation)).map Char.utf8Size

def measureComment (s : String) : Option Nat :=
  if s.toList.head? = some '#' then some ((find? '\n' s).getD s.utf8ByteSize) else none

/-- How many bytes a rule takes off the front of a text. It can also take none of them. -/
def measure (s : String) : Rule → Except BadSlice (Option Nat)
  | newline => return if s.toList.head? = some '\n' then some 1 else none
  | blank => return some (width (s.toList.takeWhile fun c => isBlank c && c ≠ '\n'))
  | comment => return measureComment s
  | token .keyword => measureKeyword s
  | token .identifier => return measureWord s
  | token .integer => measureInteger s
  | token .float => measureFloat s
  | token .string => return measureString s
  | token .operator => return measureOperator s
  | token .punctuation => return measurePunctuation s

/-- The first rule of a table that takes any bytes, and how many. -/
def measureFirst (s : String) : List Rule → Except BadSlice (Option (Rule × Nat))
  | [] => return none
  | rule :: rules => do
      let n? ← rule.measure s
      match n?.filter (0 < ·) with
      | some n => return some (rule, n)
      | none => measureFirst s rules

/-! One rule at a time, against what it takes. -/

/-- How many bytes a rule counts that takes these characters. -/
def width? : List Char → Option Nat
  | [] => none
  | c :: cs => some (width (c :: cs))

theorem width?_of_ne_nil {text : List Char} (h : text ≠ []) : width? text = some (width text) := by
  cases text with
  | nil => exact absurd rfl h
  | cons c text => rfl

theorem toNat_lt_of_isWordChar {c : Char} (h : isWordChar c) : c.toNat < 128 := by
  rw [isWordChar_iff, isWordStart_iff_toNat, isDigit_iff] at h
  omega

theorem measureWord_ofList (cs : List Char) :
    measureWord (String.ofList cs) = width? (word cs) := by
  rw [measureWord, String.toList_ofList]
  cases cs with
  | nil => rfl
  | cons c cs =>
      simp only [word]
      split
      · next hc =>
          have hchars : ∀ d ∈ c :: cs.takeWhile isWordChar, isWordChar d :=
            List.forall_mem_cons.mpr
              ⟨isWordChar_iff.mpr (.inl hc), List.all_eq_true.mp List.all_takeWhile⟩
          rw [width?, width_eq_length fun d hd => toNat_lt_of_isWordChar (hchars d hd),
            List.length_cons, Nat.add_comm]
      · rfl

theorem measureKeyword_ofList (cs : List Char) :
    measureKeyword (String.ofList cs) = .ok (width? (munch (token .keyword) cs)) := by
  rw [measureKeyword, measureWord_ofList, munch]
  by_cases hword : word cs = []
  · rw [hword]
    rfl
  · obtain ⟨rest, hrest⟩ := word_isPrefix cs
    have hslice := sliceTo_width (word cs) rest
    rw [hrest] at hslice
    simp only [width?_of_ne_nil hword, hslice]
    by_cases hmem : String.ofList (word cs) ∈ Token.keywords
    · rw [if_pos hmem, width?_of_ne_nil hword]
      exact congrArg Except.ok (if_pos hmem)
    · rw [if_neg hmem]
      exact congrArg Except.ok (if_neg hmem)

theorem sliceFrom_digits (cs : List Char) :
    sliceFrom (String.ofList cs) (width (digits cs)) = .ok (String.ofList (afterDigits cs)) := by
  have hslice := sliceFrom_width (digits cs) (afterDigits cs)
  rwa [digits_append_afterDigits] at hslice

theorem gluedToWord_width (a b : List Char) :
    gluedToWord (String.ofList (a ++ b)) (width a) = .ok (startsWord b) := by
  rw [gluedToWord, sliceFrom_width]
  change Except.ok (startsWord (String.ofList b).toList) = _
  rw [String.toList_ofList]

theorem fraction_of_head?_ne {cs : List Char} (h : cs.head? ≠ some '.') : fraction cs = [] :=
  fraction_of_head fun _ hc heq => h (heq ▸ hc)

theorem fraction_point (cs : List Char) :
    fraction ('.' :: cs) = if digits cs = [] then [] else '.' :: digits cs := rfl

theorem opensFraction_ofList (cs : List Char) :
    opensFraction (String.ofList cs) = .ok (decide (fraction cs ≠ [])) := by
  rw [opensFraction, String.toList_ofList]
  by_cases hpoint : cs.head? = some '.'
  · obtain ⟨part, rfl⟩ := List.head?_eq_some_iff.mp hpoint
    have hslice : sliceFrom (String.ofList ('.' :: part)) 1 = .ok (String.ofList part) :=
      sliceFrom_width ['.'] part
    rw [if_pos hpoint, hslice, ok_bind, digitRun_ofList, fraction_point, pure_eq_ok]
    by_cases hdigits : digits part = []
    · rw [if_pos hdigits, hdigits]
      rfl
    · simp [hdigits, width_pos hdigits]
  · rw [if_neg hpoint, fraction_of_head?_ne hpoint]
    rfl

theorem measureInteger_ofList (cs : List Char) :
    measureInteger (String.ofList cs) = .ok (width? (integer cs)) := by
  have hglued := gluedToWord_width (digits cs) (afterDigits cs)
  rw [digits_append_afterDigits] at hglued
  simp only [measureInteger, digitRun_ofList, width_eq_zero_iff, hglued, sliceFrom_digits, ok_bind,
    pure_eq_ok, opensFraction_ofList, integer]
  by_cases hwhole : digits cs = []
  · rw [if_pos hwhole, hwhole, ite_self]
    rfl
  · rw [if_neg hwhole]
    by_cases hword : startsWord (afterDigits cs)
    · rw [if_pos hword, if_pos (.inl hword)]
      rfl
    · rw [if_neg hword]
      by_cases hfraction : fraction (afterDigits cs) = []
      · simp [hword, hfraction, width?_of_ne_nil hwhole]
      · simp [hfraction, width?]

/-- What the rule for floats takes where there are digits on both sides of a point. -/
theorem float_point {cs part : List Char} (hwhole : digits cs ≠ [])
    (hpart : afterDigits cs = '.' :: part) (hdigits : digits part ≠ []) :
    float cs = if startsWord (afterDigits part) then [] else digits cs ++ '.' :: digits part := by
  have hdrop : (digits part ++ afterDigits part).drop (digits part).length = afterDigits part :=
    List.drop_left
  rw [digits_append_afterDigits] at hdrop
  simp [float, hwhole, hpart, fraction_point, hdigits, hdrop]

theorem float_eq_nil {cs : List Char} (h : fraction (afterDigits cs) = []) : float cs = [] := by
  rw [float, h]
  exact if_pos (.inr (.inl rfl))

theorem measureFloat_ofList (cs : List Char) :
    measureFloat (String.ofList cs) = .ok (width? (float cs)) := by
  simp only [measureFloat, digitRun_ofList, sliceFrom_digits, ok_bind, pure_eq_ok,
    String.toList_ofList]
  by_cases hwhole : digits cs = []
  · simp [float, hwhole, width?]
  · rw [if_neg (Nat.ne_of_gt (width_pos hwhole))]
    by_cases hpoint : (afterDigits cs).head? = some '.'
    · obtain ⟨part, hpart⟩ := List.head?_eq_some_iff.mp hpoint
      have hcs : cs = digits cs ++ '.' :: part := by rw [← hpart, digits_append_afterDigits]
      have hslice : sliceFrom (String.ofList cs) (width (digits cs) + 1) =
          .ok (String.ofList part) := by
        have h := sliceFrom_width (digits cs ++ ['.']) part
        rwa [width_append, List.append_assoc, List.singleton_append, ← hcs] at h
      rw [if_pos hpoint, hslice, ok_bind, digitRun_ofList]
      by_cases hdigits : digits part = []
      · have hfraction : fraction (afterDigits cs) = [] := by
          rw [hpart, fraction_point, if_pos hdigits]
        rw [float_eq_nil hfraction, hdigits]
        rfl
      · have hwidth : width (digits cs ++ '.' :: digits part) =
            width (digits cs) + 1 + width (digits part) := by
          rw [width_append, width_cons, ← Nat.add_assoc]
          rfl
        have hglued := gluedToWord_width (digits cs ++ '.' :: digits part) (afterDigits part)
        rw [List.append_assoc, List.cons_append, digits_append_afterDigits, ← hcs] at hglued
        rw [if_neg (Nat.ne_of_gt (width_pos hdigits)), ← hwidth, hglued, ok_bind,
          float_point hwhole hpart hdigits]
        split
        · rfl
        · rw [width?_of_ne_nil (by simp)]
    · rw [if_neg hpoint, float_eq_nil (fraction_of_head?_ne hpoint)]
      rfl

theorem string_quote (body : List Char) : string ('"' :: body) =
    if '"' ∈ body then '"' :: body.takeWhile (· ≠ '"') ++ ['"'] else [] := rfl

theorem string_of_head?_ne {cs : List Char} (h : cs.head? ≠ some '"') : string cs = [] := by
  unfold string
  split
  · exact absurd rfl h
  · rfl

theorem measureString_ofList (cs : List Char) :
    measureString (String.ofList cs) = width? (string cs) := by
  rw [measureString, String.toList_ofList]
  by_cases hquote : cs.head? = some '"'
  · obtain ⟨body, rfl⟩ := List.head?_eq_some_iff.mp hquote
    rw [if_pos hquote, List.tail_cons, find?_ofList (by decide), string_quote]
    by_cases hmem : '"' ∈ body
    · have hwidth : width ('"' :: body.takeWhile (· ≠ '"') ++ ['"']) =
          width (body.takeWhile (· ≠ '"')) + 2 := by
        rw [width_append, width_cons, Nat.add_comm ('"'.utf8Size)]
        rfl
      rw [if_pos hmem, if_pos hmem, List.cons_append, width?, ← List.cons_append, hwidth]
      rfl
    · rw [if_neg hmem, if_neg hmem]
      rfl
  · rw [if_neg hquote, string_of_head?_ne hquote]
    rfl

theorem measureOperator_ofList (cs : List Char) :
    measureOperator (String.ofList cs) = width? (operator cs) := by
  rw [measureOperator, operator, String.toList_ofList, List.find?_map]
  change _ = width? (((Token.operators.find? fun op => op.toList.isPrefixOf cs).map
    String.toList).getD [])
  cases hfind : Token.operators.find? fun op => op.toList.isPrefixOf cs with
  | none => rfl
  | some op =>
      have hne : op.toList ≠ [] := by
        have hall : Token.operators.all fun op => op.toList ≠ [] := by decide
        exact of_decide_eq_true (List.all_eq_true.mp hall op (List.mem_of_find?_eq_some hfind))
      rw [Option.map_some, Option.map_some, Option.getD_some, width?_of_ne_nil hne,
        ← utf8ByteSize_ofList, String.ofList_toList]

theorem measurePunctuation_ofList (cs : List Char) :
    measurePunctuation (String.ofList cs) = width? (punctuation cs) := by
  rw [measurePunctuation, String.toList_ofList]
  cases cs with
  | nil => rfl
  | cons c cs =>
      rw [punctuation, List.head?_cons, Option.filter_some]
      by_cases hmem : c ∈ Token.punctuation
      · rw [if_pos (decide_eq_true hmem), if_pos hmem]
        rfl
      · rw [if_neg (ne_true_of_eq_false (decide_eq_false hmem)), if_neg hmem]
        rfl

theorem takeWhile_eq_self {p : Char → Bool} {cs : List Char} (h : ∀ c ∈ cs, p c) :
    cs.takeWhile p = cs := by
  have hend : (cs ++ []).takeWhile p = cs := takeWhile_append_of_end h nofun
  rwa [List.append_nil] at hend

theorem lineComment_of_head?_ne {cs : List Char} (h : cs.head? ≠ some '#') :
    lineComment cs = [] := by
  unfold lineComment
  split
  · exact absurd rfl h
  · rfl

theorem measureComment_ofList (cs : List Char) :
    measureComment (String.ofList cs) = width? (lineComment cs) := by
  rw [measureComment, String.toList_ofList]
  by_cases hsign : cs.head? = some '#'
  · obtain ⟨line, rfl⟩ := List.head?_eq_some_iff.mp hsign
    have htake : ('#' :: line).takeWhile (· ≠ '\n') = lineComment ('#' :: line) := rfl
    rw [if_pos hsign, find?_ofList (by decide), htake, utf8ByteSize_ofList]
    by_cases hmem : '\n' ∈ '#' :: line
    · rw [if_pos hmem]
      rfl
    · have hall : ∀ c ∈ '#' :: line, decide (c ≠ '\n') = true :=
        fun c hc => decide_eq_true fun heq => hmem (heq ▸ hc)
      rw [if_neg hmem, Option.getD_none, ← htake, takeWhile_eq_self hall]
      rfl
  · rw [if_neg hsign, lineComment_of_head?_ne hsign]
    rfl

theorem width?_getD (text : List Char) : (width? text).getD 0 = width text := by
  cases text with
  | nil => rfl
  | cons c text => rfl

theorem width?_filter (text : List Char) : (width? text).filter (0 < ·) = width? text := by
  cases text with
  | nil => rfl
  | cons c text =>
      exact Option.filter_some_pos (decide_eq_true (width_pos (List.cons_ne_nil c text)))

/-- A rule is measured wherever it is tried. Where there are no blanks, it is not refused but has
taken no bytes. -/
theorem measure_ofList (rule : Rule) (cs : List Char) :
    rule.measure (String.ofList cs) = .ok (width? (rule.munch cs)) ∨
      rule.munch cs = [] ∧ rule.measure (String.ofList cs) = .ok (some 0) := by
  cases rule with
  | newline =>
      left
      rw [measure, String.toList_ofList, munch, pure_eq_ok]
      split
      · rfl
      · rfl
  | blank =>
      rw [measure, String.toList_ofList]
      by_cases hnil : munch blank cs = []
      · right
        refine ⟨hnil, ?_⟩
        change Except.ok (some (width (munch blank cs))) = _
        rw [hnil]
        rfl
      · left
        rw [width?_of_ne_nil hnil]
        rfl
  | comment => exact .inl (congrArg Except.ok (measureComment_ofList cs))
  | token kind =>
      left
      cases kind with
      | keyword => exact measureKeyword_ofList cs
      | identifier => exact congrArg Except.ok (measureWord_ofList cs)
      | integer => exact measureInteger_ofList cs
      | float => exact measureFloat_ofList cs
      | string => exact congrArg Except.ok (measureString_ofList cs)
      | operator => exact congrArg Except.ok (measureOperator_ofList cs)
      | punctuation => exact congrArg Except.ok (measurePunctuation_ofList cs)

theorem exists_measure (rule : Rule) (cs : List Char) :
    ∃ n?, rule.measure (String.ofList cs) = .ok n? ∧ n?.getD 0 = width (rule.munch cs) ∧
      n?.filter (0 < ·) = width? (rule.munch cs) := by
  rcases measure_ofList rule cs with h | ⟨hnil, h⟩
  · exact ⟨_, h, width?_getD _, width?_filter _⟩
  · rw [hnil]
    exact ⟨_, h, rfl, rfl⟩

theorem measureFirst_ofList (rules : List Rule) (cs : List Char) :
    measureFirst (String.ofList cs) rules =
      .ok ((first? rules cs).map fun rule => (rule, width (rule.munch cs))) := by
  induction rules with
  | nil => rfl
  | cons rule rules ih =>
      obtain ⟨n?, hmeasure, _, hfilter⟩ := exists_measure rule cs
      rw [measureFirst, hmeasure, ok_bind, hfilter, first?, List.find?_cons]
      by_cases hnil : rule.munch cs = []
      · simp only [hnil, width?, ih, first?, ne_eq, not_true_eq_false, decide_false]
      · simp only [hnil, width?_of_ne_nil, ne_eq, not_false_eq_true, decide_true, Option.map_some,
          pure_eq_ok]

end Rule
end ExprFront
