import ExprFront.Rule

/-!
The lexical classes as sets of texts, apart from any way to find them. The rules that take tokens
take texts of their classes, and take a text whole where what follows does not go on with it.
Hardly ever do two rules apply in one place: by their first character they are told apart, but for
words, which may be keywords, and for numbers, which may have a fraction.
-/

namespace ExprFront

open Rule

def IsWord : List Char → Prop
  | [] => False
  | c :: cs => isWordStart c ∧ ∀ d ∈ cs, isWordChar d

instance : DecidablePred IsWord
  | [] => inferInstanceAs (Decidable False)
  | c :: cs =>
      decidable_of_iff (isWordStart c ∧ cs.all isWordChar) (and_congr_right' List.all_eq_true)

def IsDigits (cs : List Char) : Prop :=
  cs ≠ [] ∧ ∀ c ∈ cs, c.isDigit

instance : DecidablePred IsDigits :=
  fun cs => decidable_of_iff (cs ≠ [] ∧ cs.all Char.isDigit) (and_congr_right' List.all_eq_true)

/-- The texts that tokens of a kind have. -/
def Token.Kind.Admits (text : String) : Token.Kind → Prop
  | keyword => text ∈ keywords
  | identifier => IsWord text.toList ∧ text ∉ keywords
  | integer => IsDigits text.toList
  | float => ∃ whole part, text.toList = whole ++ '.' :: part ∧ IsDigits whole ∧ IsDigits part
  | string => ∃ body, text.toList = '"' :: body ++ ['"'] ∧ '"' ∉ body
  | operator => text ∈ operators
  | punctuation => ∃ c ∈ Token.punctuation, text.toList = [c]

/-- The text after a token does not go on with it. -/
def Token.Kind.EndsAt (rest : List Char) : Token.Kind → Prop
  | keyword | identifier | integer | float => ∀ c ∈ rest.head?, ¬ isWordChar c ∧ c ≠ '.'
  | operator => ∀ c ∈ rest.head?, c ≠ '='
  | string | punctuation => True

namespace Rule

/-! First characters. -/

theorem isUpper_iff {c : Char} : c.isUpper ↔ 65 ≤ c.toNat ∧ c.toNat ≤ 90 := by
  change decide ('A'.val ≤ c.val ∧ c.val ≤ 'Z'.val) ↔ _
  rw [decide_eq_true_iff, UInt32.le_iff_toNat_le, UInt32.le_iff_toNat_le]
  rfl

theorem isLower_iff {c : Char} : c.isLower ↔ 97 ≤ c.toNat ∧ c.toNat ≤ 122 := by
  change decide ('a'.val ≤ c.val) && decide (c.val ≤ 'z'.val) ↔ _
  rw [Bool.and_eq_true, decide_eq_true_iff, decide_eq_true_iff, UInt32.le_iff_toNat_le,
    UInt32.le_iff_toNat_le]
  rfl

theorem isWordStart_iff_toNat {c : Char} :
    isWordStart c ↔ 65 ≤ c.toNat ∧ c.toNat ≤ 90 ∨ 97 ≤ c.toNat ∧ c.toNat ≤ 122 ∨ c.toNat = 95 := by
  have hunderscore : c = '_' ↔ c.toNat = 95 := Char.toNat_inj.symm
  change (c.isUpper || c.isLower) || c == '_' ↔ _
  rw [Bool.or_eq_true, Bool.or_eq_true, isUpper_iff, isLower_iff, beq_iff_eq, hunderscore,
    or_assoc]

theorem isWordChar_iff {c : Char} : isWordChar c ↔ isWordStart c ∨ c.isDigit := by
  simp only [isWordChar, isWordStart, Char.isAlphanum, Bool.or_eq_true]
  constructor
  · intro h
    rcases h with (h | h) | h
    · exact .inl (.inl h)
    · exact .inr h
    · exact .inl (.inr h)
  · intro h
    rcases h with (h | h) | h
    · exact .inl (.inl h)
    · exact .inr h
    · exact .inl (.inr h)

theorem isDigit_iff {c : Char} : c.isDigit ↔ 48 ≤ c.toNat ∧ c.toNat ≤ 57 :=
  Char.isDigit_iff_toNat

theorem not_isBlank_of_isWordChar {c : Char} (h : isWordChar c) : ¬ Text.isBlank c := by
  intro hblank
  obtain ⟨range, hmem, hlow, hhigh⟩ := Text.Ranges.exists_of_contains hblank
  rw [isWordChar_iff, isWordStart_iff_toNat, isDigit_iff] at h
  simp only [Text.blanks, List.mem_cons, List.not_mem_nil, or_false] at hmem
  rcases hmem with rfl | rfl | rfl | rfl | rfl | rfl | rfl | rfl | rfl | rfl <;> omega

theorem not_isWordStart_of_isDigit {c : Char} (h : c.isDigit) : ¬ isWordStart c := by
  rw [isDigit_iff] at h
  rw [isWordStart_iff_toNat]
  omega

theorem ne_newline_of_isWordChar {c : Char} (h : isWordChar c) : c ≠ '\n' := by
  rintro rfl
  exact absurd h (by decide)

def operatorStarts : List Char :=
  (Token.operators.map String.toList).filterMap List.head?

/-- The rule for texts that begin with a character, where keywords count as words and floats as
numbers. -/
def ofChar? (c : Char) : Option Rule :=
  if c = '\n' then some newline
  else if Text.isBlank c then some blank
  else if isWordStart c then some (token .identifier)
  else if c.isDigit then some (token .integer)
  else if c = '"' then some (token .string)
  else if c ∈ operatorStarts then some (token .operator)
  else if c ∈ Token.punctuation then some (token .punctuation)
  else if c = '#' then some comment
  else none

def family : Rule → Rule
  | token .keyword => token .identifier
  | token .float => token .integer
  | rule => rule

theorem ofChar?_of_isWordStart {c : Char} (h : isWordStart c) :
    ofChar? c = some (token .identifier) := by
  have hchar := isWordChar_iff.mpr (.inl h)
  rw [ofChar?, if_neg (ne_newline_of_isWordChar hchar),
    if_neg (not_isBlank_of_isWordChar hchar), if_pos h]

theorem ofChar?_of_isDigit {c : Char} (h : c.isDigit) : ofChar? c = some (token .integer) := by
  have hchar := isWordChar_iff.mpr (.inr h)
  rw [ofChar?, if_neg (ne_newline_of_isWordChar hchar),
    if_neg (not_isBlank_of_isWordChar hchar), if_neg (not_isWordStart_of_isDigit h), if_pos h]

theorem ofChar?_of_mem_operatorStarts :
    ∀ c ∈ operatorStarts, ofChar? c = some (token .operator) := by
  intro c hc
  have hall : operatorStarts.all fun c => ofChar? c = some (token .operator) := by decide
  exact of_decide_eq_true (List.all_eq_true.mp hall c hc)

theorem ofChar?_of_mem_punctuation :
    ∀ c ∈ Token.punctuation, ofChar? c = some (token .punctuation) := by
  intro c hc
  have hall : Token.punctuation.all fun c => ofChar? c = some (token .punctuation) := by decide
  exact of_decide_eq_true (List.all_eq_true.mp hall c hc)

theorem word_cons_ne_nil {c : Char} {cs : List Char} (h : word (c :: cs) ≠ []) :
    isWordStart c := by
  rw [word] at h
  split at h
  · next hstart => exact hstart
  · exact absurd rfl h

theorem digits_cons_ne_nil {c : Char} {cs : List Char} (h : digits (c :: cs) ≠ []) :
    c.isDigit := by
  rw [digits, List.takeWhile_cons] at h
  split at h
  · next hdigit => exact hdigit
  · exact absurd rfl h

theorem operator_ne_nil {cs : List Char} (h : operator cs ≠ []) :
    ∃ op ∈ Token.operators, operator cs = op.toList ∧ op.toList <+: cs := by
  rw [operator] at h ⊢
  cases hfind : (Token.operators.map String.toList).find? (·.isPrefixOf cs) with
  | none =>
      rw [hfind] at h
      exact absurd rfl h
  | some text =>
      have hfound := List.find?_some hfind
      obtain ⟨op, hop, rfl⟩ := List.mem_map.mp (List.mem_of_find?_eq_some hfind)
      exact ⟨op, hop, rfl, List.isPrefixOf_iff_prefix.mp hfound⟩

/-- The first character of a text says which rules can apply. -/
theorem ofChar?_of_munch {rule : Rule} {c : Char} {cs : List Char}
    (h : rule.munch (c :: cs) ≠ []) : ofChar? c = some rule.family := by
  cases rule with
  | newline =>
      simp only [munch, List.head?_cons, Option.some.injEq] at h
      split at h
      · next hc =>
          rw [hc]
          decide
      · exact absurd rfl h
  | blank =>
      rw [munch, List.takeWhile_cons] at h
      split at h
      · next hblank =>
          simp only [Bool.and_eq_true, decide_eq_true_eq] at hblank
          rw [ofChar?, if_neg hblank.2, if_pos hblank.1]
          rfl
      · exact absurd rfl h
  | comment =>
      rw [munch] at h
      unfold lineComment at h
      split at h
      · next hcons =>
          cases hcons
          decide
      · exact absurd rfl h
  | token kind =>
      cases kind with
      | keyword =>
          rw [munch] at h
          split at h
          · exact ofChar?_of_isWordStart (word_cons_ne_nil h)
          · exact absurd rfl h
      | identifier => exact ofChar?_of_isWordStart (word_cons_ne_nil h)
      | integer =>
          rw [munch, integer] at h
          split at h
          · exact absurd rfl h
          · exact ofChar?_of_isDigit (digits_cons_ne_nil h)
      | float =>
          simp only [munch, float] at h
          split at h
          · exact absurd rfl h
          · next hnot =>
              have hdigits : digits (c :: cs) ≠ [] := fun hnil => hnot (.inl hnil)
              exact ofChar?_of_isDigit (digits_cons_ne_nil hdigits)
      | string =>
          rw [munch] at h
          unfold string at h
          split at h
          · next hcons =>
              cases hcons
              decide
          · exact absurd rfl h
      | operator =>
          obtain ⟨op, hop, htext, hprefix⟩ := operator_ne_nil h
          rw [munch, htext] at h
          obtain ⟨d, ds, hcons⟩ := List.exists_cons_of_ne_nil h
          rw [hcons, List.cons_prefix_cons] at hprefix
          rw [← hprefix.1]
          apply ofChar?_of_mem_operatorStarts
          apply List.mem_filterMap.mpr
          exact ⟨op.toList, List.mem_map_of_mem hop, by rw [hcons]; rfl⟩
      | punctuation =>
          rw [munch, punctuation] at h
          split at h
          · next hmem => exact ofChar?_of_mem_punctuation c hmem
          · exact absurd rfl h

theorem munch_nil (rule : Rule) : rule.munch [] = [] :=
  List.prefix_nil.mp (munch_isPrefix rule [])

theorem not_integer_and_float {cs : List Char} (hinteger : munch (token .integer) cs ≠ []) :
    munch (token .float) cs = [] := by
  rw [munch, integer] at hinteger
  split at hinteger
  · exact absurd rfl hinteger
  · next hnot =>
      have hfraction : fraction (afterDigits cs) = [] := by
        apply Decidable.byContradiction
        intro hne
        exact hnot (.inr hne)
      simp only [munch, float]
      exact if_pos (.inr (.inl hfraction))

theorem family_eq_family {rule other : Rule} (h : rule.family = other.family) :
    rule = other ∨
      (rule = token .keyword ∧ other = token .identifier) ∨
      (rule = token .identifier ∧ other = token .keyword) ∨
      (rule = token .integer ∧ other = token .float) ∨
      (rule = token .float ∧ other = token .integer) := by
  rcases rule with _ | _ | _ | (_ | _ | _ | _ | _ | _ | _) <;>
    rcases other with _ | _ | _ | (_ | _ | _ | _ | _ | _ | _) <;>
      simp [family] at h ⊢

/-- Two rules apply in one place only where a keyword is also taken for a word. -/
theorem eq_or_word_of_munch {rule other : Rule} {cs : List Char} (h : rule.munch cs ≠ [])
    (hother : other.munch cs ≠ []) :
    rule = other ∨ (rule = token .keyword ∧ other = token .identifier) ∨
      (rule = token .identifier ∧ other = token .keyword) := by
  cases cs with
  | nil => exact absurd (munch_nil rule) h
  | cons c cs =>
      have hfamily : rule.family = other.family := by
        apply Option.some.inj
        rw [← ofChar?_of_munch h, ← ofChar?_of_munch hother]
      rcases family_eq_family hfamily with heq | hword | hword | ⟨rfl, rfl⟩ | ⟨rfl, rfl⟩
      · exact .inl heq
      · exact .inr (.inl hword)
      · exact .inr (.inr hword)
      · exact absurd (not_integer_and_float h) hother
      · exact absurd (not_integer_and_float hother) h

theorem mem_table (rule : Rule) : rule ∈ table := by
  rcases rule with _ | _ | _ | (_ | _ | _ | _ | _ | _ | _) <;> decide

theorem munch_eq_nil_of_first? {cs : List Char} (h : first? table cs = none) (rule : Rule) :
    rule.munch cs = [] := by
  simpa using List.find?_eq_none.mp h rule (mem_table rule)

theorem first?_eq_none_of_ofChar? {c : Char} (h : ofChar? c = none) (cs : List Char) :
    first? table (c :: cs) = none := by
  cases hfirst : first? table (c :: cs) with
  | none => rfl
  | some rule => cases h.symm.trans (ofChar?_of_munch (munch_ne_nil_of_first? hfirst))

/-- The rule that a text falls to is the one that applies, unless the text begins with a keyword. -/
theorem first?_table_eq_some_iff {rule : Rule} {cs : List Char} :
    first? table cs = some rule ↔ rule.munch cs ≠ [] ∧
      (rule = token .identifier → munch (token .keyword) cs = []) := by
  have hkeyword : munch (token .keyword) cs ≠ [] →
      first? table cs = some (token .keyword) := by
    intro h
    have hnewline : munch newline cs = [] := by
      apply Decidable.byContradiction
      intro hne
      simpa using eq_or_word_of_munch h hne
    have hblank : munch blank cs = [] := by
      apply Decidable.byContradiction
      intro hne
      simpa using eq_or_word_of_munch h hne
    simp [first?, table, hnewline, hblank, h]
  constructor
  · intro h
    refine ⟨munch_ne_nil_of_first? h, ?_⟩
    rintro rfl
    apply Decidable.byContradiction
    intro hne
    rw [hkeyword hne] at h
    cases h
  · intro hfalls
    obtain ⟨h, hword⟩ := hfalls
    cases hfirst : first? table cs with
    | none => exact absurd (munch_eq_nil_of_first? hfirst rule) h
    | some other =>
        rcases eq_or_word_of_munch h (munch_ne_nil_of_first? hfirst) with
          heq | ⟨rfl, rfl⟩ | ⟨rfl, rfl⟩
        · rw [heq]
        · rw [← hfirst, hkeyword h]
        · exact absurd (hword rfl) (munch_ne_nil_of_first? hfirst)

/-! Texts that are taken. -/

theorem isWord_word {cs : List Char} (h : word cs ≠ []) : IsWord (word cs) := by
  unfold word at h ⊢
  split at h
  · exact absurd rfl h
  · split at h
    · next hstart =>
        rw [if_pos hstart]
        refine ⟨hstart, ?_⟩
        intro d hd
        exact List.all_eq_true.mp List.all_takeWhile d hd
    · exact absurd rfl h

theorem isDigits_digits {cs : List Char} (h : digits cs ≠ []) : IsDigits (digits cs) := by
  refine ⟨h, ?_⟩
  intro c hc
  exact List.all_eq_true.mp List.all_takeWhile c hc

theorem fraction_ne_nil {cs : List Char} (h : fraction cs ≠ []) :
    ∃ part, fraction cs = '.' :: part ∧ IsDigits part := by
  unfold fraction at h ⊢
  split at h
  · next tail =>
      split at h
      · exact absurd rfl h
      · next hdigits =>
          simp only [if_neg hdigits]
          exact ⟨_, rfl, isDigits_digits hdigits⟩
  · exact absurd rfl h

theorem string_ne_nil {cs : List Char} (h : string cs ≠ []) :
    ∃ body, string cs = '"' :: body ++ ['"'] ∧ '"' ∉ body := by
  unfold string at h ⊢
  split at h
  · next tail =>
      split at h
      · next hmem =>
          simp only [if_pos hmem]
          refine ⟨_, rfl, ?_⟩
          intro hquote
          simpa using List.all_eq_true.mp List.all_takeWhile _ hquote
      · exact absurd rfl h
  · exact absurd rfl h

theorem admits_munch {kind : Token.Kind} {cs : List Char}
    (h : first? table cs = some (token kind)) :
    kind.Admits (String.ofList (munch (token kind) cs)) := by
  obtain ⟨hne, hword⟩ := first?_table_eq_some_iff.mp h
  cases kind with
  | keyword =>
      rw [munch] at hne ⊢
      split at hne
      · next hmem =>
          rw [if_pos hmem]
          exact hmem
      · exact absurd rfl hne
  | identifier =>
      have hkeyword := hword rfl
      simp only [munch] at hne hkeyword ⊢
      refine ⟨?_, ?_⟩
      · rw [String.toList_ofList]
        exact isWord_word hne
      · intro hmem
        rw [if_pos hmem] at hkeyword
        exact hne hkeyword
  | integer =>
      rw [munch, integer] at hne ⊢
      split at hne
      · exact absurd rfl hne
      · next hnot =>
          rw [if_neg hnot, Token.Kind.Admits, String.toList_ofList]
          exact isDigits_digits hne
  | float =>
      simp only [munch, float] at hne ⊢
      split at hne
      · exact absurd rfl hne
      · next hnot =>
          rw [if_neg hnot]
          rw [not_or, not_or] at hnot
          obtain ⟨part, hpart, hdigits⟩ := fraction_ne_nil hnot.2.1
          refine ⟨digits cs, part, ?_, isDigits_digits hnot.1, hdigits⟩
          rw [String.toList_ofList, hpart]
  | string =>
      obtain ⟨body, hbody, hquote⟩ := string_ne_nil hne
      refine ⟨body, ?_, hquote⟩
      rw [String.toList_ofList]
      exact hbody
  | operator =>
      obtain ⟨op, hop, htext, _⟩ := operator_ne_nil hne
      change String.ofList (operator cs) ∈ Token.operators
      rw [htext, String.ofList_toList]
      exact hop
  | punctuation =>
      rw [munch] at hne ⊢
      unfold punctuation at hne ⊢
      split at hne
      · split at hne
        · next c _ hmem =>
            simp only [if_pos hmem]
            exact ⟨c, hmem, String.toList_ofList⟩
        · exact absurd rfl hne
      · exact absurd rfl hne

/-! Texts that are taken whole. -/

theorem takeWhile_append_of_end {p : Char → Bool} {text rest : List Char}
    (htext : ∀ c ∈ text, p c) (hrest : ∀ c ∈ rest.head?, ¬ p c) :
    (text ++ rest).takeWhile p = text := by
  rw [List.takeWhile_append_of_pos htext]
  cases rest with
  | nil => simp
  | cons c rest => simp [hrest c rfl]

theorem dropWhile_append_of_end {p : Char → Bool} {text rest : List Char}
    (htext : ∀ c ∈ text, p c) (hrest : ∀ c ∈ rest.head?, ¬ p c) :
    (text ++ rest).dropWhile p = rest := by
  rw [List.dropWhile_append_of_pos htext]
  cases rest with
  | nil => rfl
  | cons c rest => simp [hrest c rfl]

theorem word_append {text rest : List Char} (h : IsWord text)
    (hrest : ∀ c ∈ rest.head?, ¬ isWordChar c) : word (text ++ rest) = text := by
  cases text with
  | nil => exact absurd h id
  | cons c cs =>
      rw [List.cons_append, word, if_pos h.1, takeWhile_append_of_end h.2 hrest]

theorem not_startsWord {rest : List Char} (h : ∀ c ∈ rest.head?, ¬ isWordChar c) :
    ¬ startsWord rest := by
  cases rest with
  | nil => simp [startsWord]
  | cons c rest => exact h c rfl

theorem fraction_of_head {rest : List Char} (h : ∀ c ∈ rest.head?, c ≠ '.') :
    fraction rest = [] := by
  unfold fraction
  split
  · exact absurd rfl (h '.' rfl)
  · rfl

theorem keywords_isWord : ∀ text ∈ Token.keywords, IsWord text.toList := by
  decide

theorem not_isDigit_of_head {rest : List Char} (h : ∀ c ∈ rest.head?, ¬ isWordChar c) :
    ∀ c ∈ rest.head?, ¬ c.isDigit := by
  intro c hc hdigit
  exact h c hc (isWordChar_iff.mpr (.inr hdigit))

theorem integer_append {text rest : List Char} (h : IsDigits text)
    (hword : ∀ c ∈ rest.head?, ¬ isWordChar c) (hfraction : fraction rest = []) :
    integer (text ++ rest) = text := by
  have hdigit := not_isDigit_of_head hword
  have hafter : afterDigits (text ++ rest) = rest := dropWhile_append_of_end h.2 hdigit
  rw [integer, hafter, if_neg (by simp [not_startsWord hword, hfraction])]
  exact takeWhile_append_of_end h.2 hdigit

theorem float_append {whole part rest : List Char} (hwhole : IsDigits whole)
    (hpart : IsDigits part) (hword : ∀ c ∈ rest.head?, ¬ isWordChar c) :
    float (whole ++ '.' :: (part ++ rest)) = whole ++ '.' :: part := by
  have hpoint : ∀ c ∈ ('.' :: (part ++ rest)).head?, ¬ c.isDigit := by
    intro c hc
    cases hc
    decide
  have hdigits : digits (whole ++ '.' :: (part ++ rest)) = whole :=
    takeWhile_append_of_end hwhole.2 hpoint
  have hafter : afterDigits (whole ++ '.' :: (part ++ rest)) = '.' :: (part ++ rest) :=
    dropWhile_append_of_end hwhole.2 hpoint
  have hpartDigits : digits (part ++ rest) = part :=
    takeWhile_append_of_end hpart.2 (not_isDigit_of_head hword)
  have hfraction : fraction ('.' :: (part ++ rest)) = '.' :: part := by
    rw [fraction, hpartDigits, if_neg hpart.1]
  simp only [float, hdigits, hafter, hfraction]
  simp [hwhole.1, not_startsWord hword]

theorem string_append {body : List Char} (h : '"' ∉ body) (rest : List Char) :
    string ('"' :: (body ++ '"' :: rest)) = '"' :: body ++ ['"'] := by
  have hbody : ∀ c ∈ body, decide (c ≠ '"') = true := by
    intro c hc
    have hne : c ≠ '"' := fun heq => h (heq ▸ hc)
    simpa using hne
  have htake : (body ++ '"' :: rest).takeWhile (· ≠ '"') = body := by
    apply takeWhile_append_of_end hbody
    intro c hc
    cases hc
    decide
  have hmem : '"' ∈ body ++ '"' :: rest := by simp
  rw [string, if_pos hmem, htake]

theorem operator_append {text : String} (h : text ∈ Token.operators) {rest : List Char}
    (hend : text = "=" → ∀ c ∈ rest.head?, c ≠ '=') :
    operator (text.toList ++ rest) = text.toList := by
  cases rest with
  | nil =>
      rw [List.append_nil]
      have hall : ∀ text ∈ Token.operators, operator text.toList = text.toList := by decide
      exact hall text h
  | cons c rest =>
      have hc (htext : text = "=") : '=' ≠ c := Ne.symm (hend htext c rfl)
      simp only [Token.operators, List.mem_cons, List.not_mem_nil, or_false] at h
      rcases h with rfl | rfl | rfl | rfl | rfl | rfl | rfl | rfl | rfl | rfl | rfl <;>
        simp [operator, Token.operators, hc]

theorem munch_append {kind : Token.Kind} {text : String} {rest : List Char}
    (h : kind.Admits text) (hend : kind.EndsAt rest) :
    munch (token kind) (text.toList ++ rest) = text.toList := by
  cases kind with
  | keyword =>
      have hword := word_append (keywords_isWord text h) fun c hc => (hend c hc).1
      rw [munch, hword, String.ofList_toList]
      exact if_pos h
  | identifier => exact word_append h.1 fun c hc => (hend c hc).1
  | integer =>
      exact integer_append h (fun c hc => (hend c hc).1)
        (fraction_of_head fun c hc => (hend c hc).2)
  | float =>
      obtain ⟨whole, part, htext, hwhole, hpart⟩ := h
      rw [htext, List.append_assoc]
      exact float_append hwhole hpart fun c hc => (hend c hc).1
  | string =>
      obtain ⟨body, htext, hquote⟩ := h
      rw [htext, List.append_assoc]
      exact string_append hquote rest
  | operator => exact operator_append h fun _ => hend
  | punctuation =>
      obtain ⟨c, hmem, htext⟩ := h
      rw [htext]
      exact if_pos hmem

theorem operators_ne_nil : ∀ text ∈ Token.operators, text.toList ≠ [] := by
  decide

theorem ne_nil_of_isWord {cs : List Char} (h : IsWord cs) : cs ≠ [] := by
  rintro rfl
  exact h

theorem ne_nil_of_admits {kind : Token.Kind} {text : String} (h : kind.Admits text) :
    text.toList ≠ [] := by
  cases kind with
  | keyword => exact ne_nil_of_isWord (keywords_isWord text h)
  | identifier => exact ne_nil_of_isWord h.1
  | integer => exact h.1
  | float =>
      obtain ⟨whole, part, htext, _, _⟩ := h
      simp [htext]
  | string =>
      obtain ⟨body, htext, _⟩ := h
      simp [htext]
  | operator => exact operators_ne_nil text h
  | punctuation =>
      obtain ⟨c, _, htext⟩ := h
      simp [htext]

/-- A text of a kind falls to the rule of that kind, if what follows does not go on with it. -/
theorem first?_append {kind : Token.Kind} {text : String} {rest : List Char}
    (h : kind.Admits text) (hend : kind.EndsAt rest) :
    first? table (text.toList ++ rest) = some (token kind) := by
  rw [first?_table_eq_some_iff]
  constructor
  · rw [munch_append h hend]
    exact ne_nil_of_admits h
  · intro hkind
    cases hkind
    have hword : word (text.toList ++ rest) = text.toList := munch_append h hend
    rw [munch, hword, String.ofList_toList]
    exact if_neg h.2

end Rule

end ExprFront
