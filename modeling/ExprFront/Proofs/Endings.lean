import ExprFront.Proofs.Lines
import ExprFront.Proofs.Munch

/-!
Where lexemes end. What a rule takes is a text of its class, and it ends where what follows does
not go on with it. The rules see no more of what follows than that: its first character, or for a
number the fraction at its front. So a lexeme stays as it is when the source is cut off after it,
and when more is added to a source that goes on behind it.
-/

namespace ExprFront.Rule

/-- A text of the class of a rule. -/
def Fits (text : List Char) : Rule → Prop
  | newline => text = ['\n']
  | blank => text ≠ [] ∧ ∀ c ∈ text, Text.isBlank c && c ≠ '\n'
  | comment => ∃ body, text = '#' :: body ∧ '\n' ∉ body
  | token kind => kind.Admits (String.ofList text)

/-- What follows a text does not go on with it. -/
def StopsAt (text rest : List Char) : Rule → Prop
  | newline | token .string | token .punctuation => True
  | blank => ∀ c ∈ rest.head?, ¬ (Text.isBlank c && c ≠ '\n')
  | comment => ∀ c ∈ rest.head?, c = '\n'
  | token .keyword | token .identifier | token .float => ∀ c ∈ rest.head?, ¬ isWordChar c
  | token .integer => (∀ c ∈ rest.head?, ¬ isWordChar c) ∧ fraction rest = []
  | token .operator => text = ['='] → ∀ c ∈ rest.head?, c ≠ '='

variable {rule : Rule} {text rest other : List Char}

/-! From a class and an end to the rule. -/

theorem comment_append {body rest : List Char} (h : '\n' ∉ body)
    (hrest : ∀ c ∈ rest.head?, c = '\n') : lineComment ('#' :: (body ++ rest)) = '#' :: body := by
  have hbody : ∀ c ∈ body, decide (c ≠ '\n') = true := by
    intro c hc
    have hne : c ≠ '\n' := fun heq => h (heq ▸ hc)
    simpa using hne
  rw [lineComment, takeWhile_append_of_end hbody]
  intro c hc
  simpa using hrest c hc

theorem munch_of_stopsAt (hfits : rule.Fits text) (hstops : rule.StopsAt text rest) :
    rule.munch (text ++ rest) = text := by
  cases rule with
  | newline =>
      cases hfits
      rfl
  | blank => exact takeWhile_append_of_end hfits.2 hstops
  | comment =>
      obtain ⟨body, rfl, hbody⟩ := hfits
      exact comment_append hbody hstops
  | token kind =>
      cases kind with
      | keyword =>
          have hword := keywords_isWord _ hfits
          rw [String.toList_ofList] at hword
          rw [munch, word_append hword hstops]
          exact if_pos hfits
      | identifier =>
          have hword := hfits.1
          rw [String.toList_ofList] at hword
          exact word_append hword hstops
      | integer =>
          simp only [Fits, Token.Kind.Admits, String.toList_ofList] at hfits
          exact integer_append hfits hstops.1 hstops.2
      | float =>
          simp only [Fits, Token.Kind.Admits, String.toList_ofList] at hfits
          obtain ⟨whole, part, rfl, hwhole, hpart⟩ := hfits
          rw [List.append_assoc]
          exact float_append hwhole hpart hstops
      | string =>
          simp only [Fits, Token.Kind.Admits, String.toList_ofList] at hfits
          obtain ⟨body, rfl, hquote⟩ := hfits
          rw [List.append_assoc]
          exact string_append hquote rest
      | operator =>
          have hend : String.ofList text = "=" → ∀ c ∈ rest.head?, c ≠ '=' := by
            intro htext
            apply hstops
            rw [← String.toList_ofList (l := text), htext]
            rfl
          have happend := operator_append hfits hend
          rwa [String.toList_ofList] at happend
      | punctuation =>
          simp only [Fits, Token.Kind.Admits, String.toList_ofList] at hfits
          obtain ⟨c, hmem, rfl⟩ := hfits
          exact if_pos hmem

theorem Fits.ne_nil (h : rule.Fits text) : text ≠ [] := by
  cases rule with
  | newline =>
      cases h
      simp
  | blank => exact h.1
  | comment =>
      obtain ⟨body, rfl, _⟩ := h
      simp
  | token kind =>
      have hne := ne_nil_of_admits h
      rwa [String.toList_ofList] at hne

theorem takes_of_stopsAt (hfits : rule.Fits text) (hstops : rule.StopsAt text rest) :
    rule.Takes text rest := by
  have hmunch := munch_of_stopsAt hfits hstops
  refine ⟨?_, hmunch⟩
  rw [first?_table_eq_some_iff, hmunch]
  refine ⟨hfits.ne_nil, ?_⟩
  rintro rfl
  have hword : word (text ++ rest) = text := hmunch
  rw [munch, hword]
  exact if_neg hfits.2

/-! From the rule to a class and an end. -/

theorem not_of_takeWhile_append {p : Char → Bool} (h : (text ++ rest).takeWhile p = text) :
    ∀ c ∈ rest.head?, ¬ p c := by
  intro c hc
  obtain ⟨tail, rfl⟩ := List.head?_eq_some_iff.mp hc
  have hall : ∀ d ∈ text, p d := by
    rw [← h]
    exact List.all_eq_true.mp List.all_takeWhile
  intro hp
  rw [List.takeWhile_append_of_pos hall, List.takeWhile_cons_of_pos hp] at h
  have hlength := congrArg List.length h
  simp at hlength

theorem not_isWordChar_of_word_append (hne : text ≠ []) (h : word (text ++ rest) = text) :
    ∀ c ∈ rest.head?, ¬ isWordChar c := by
  obtain ⟨c, cs, rfl⟩ := List.exists_cons_of_ne_nil hne
  rw [List.cons_append, word] at h
  split at h
  · exact not_of_takeWhile_append (List.cons.inj h).2
  · exact absurd h.symm hne

theorem Takes.fraction_eq_nil (h : (token .integer).Takes text rest) : fraction rest = [] := by
  have hmunch := h.munch
  have happend := digits_append_afterDigits (text ++ rest)
  rw [Rule.munch, integer] at hmunch
  split at hmunch
  · exact absurd hmunch.symm h.ne_nil
  · next hnot =>
      rw [hmunch] at happend
      rw [List.append_cancel_left happend] at hnot
      exact Decidable.byContradiction fun hne => hnot (.inr hne)

theorem Takes.fits (h : rule.Takes text rest) : rule.Fits text := by
  have hne := h.ne_nil
  have hmunch := h.munch
  cases rule with
  | newline =>
      rw [Rule.munch] at hmunch
      split at hmunch
      · exact hmunch.symm
      · exact absurd hmunch.symm hne
  | blank =>
      refine ⟨hne, ?_⟩
      rw [← hmunch]
      exact List.all_eq_true.mp List.all_takeWhile
  | comment =>
      rw [Rule.munch] at hmunch
      unfold lineComment at hmunch
      split at hmunch
      · refine ⟨_, hmunch.symm, ?_⟩
        intro hmem
        simpa using List.all_eq_true.mp List.all_takeWhile _ hmem
      · exact absurd hmunch.symm hne
  | token kind =>
      have hadmits := admits_munch h.first
      rwa [hmunch] at hadmits

theorem Takes.stopsAt (h : rule.Takes text rest) : rule.StopsAt text rest := by
  have hne := h.ne_nil
  cases rule with
  | newline => trivial
  | blank => exact not_of_takeWhile_append h.munch
  | comment =>
      obtain ⟨body, rfl, _⟩ := h.fits
      have hbody := not_of_takeWhile_append (List.cons.inj h.munch).2
      intro c hc
      simpa using hbody c hc
  | token kind =>
      have hreach := h.reach_eq
      have hnumber (hkind : kind = .integer ∨ kind = .float) :
          ∀ c ∈ rest.head?, ¬ isWordChar c := by
        intro c hc
        obtain ⟨tail, rfl⟩ := List.head?_eq_some_iff.mp hc
        exact h.not_startsWord hkind
      cases kind with
      | keyword => exact not_isWordChar_of_word_append hne hreach
      | identifier => exact not_isWordChar_of_word_append hne hreach
      | integer => exact ⟨hnumber (.inl rfl), h.fraction_eq_nil⟩
      | float => exact hnumber (.inr rfl)
      | string => trivial
      | operator =>
          rintro rfl c hc rfl
          obtain ⟨tail, rfl⟩ := List.head?_eq_some_iff.mp hc
          cases h.munch
      | punctuation => trivial

theorem takes_iff : rule.Takes text rest ↔ rule.Fits text ∧ rule.StopsAt text rest :=
  ⟨fun h => ⟨h.fits, h.stopsAt⟩, fun h => takes_of_stopsAt h.1 h.2⟩

/-! Less and more after a lexeme. -/

theorem fraction_eq_nil_of_isPrefix (h : fraction rest = []) (hfront : other <+: rest) :
    fraction other = [] := by
  obtain ⟨more, rfl⟩ := hfront
  apply Decidable.byContradiction
  intro hne
  unfold fraction at hne
  split at hne
  · next cs =>
      cases cs with
      | nil => exact hne rfl
      | cons d ds =>
          split at hne
          · exact hne rfl
          · next hdigits =>
              have hd := digits_cons_ne_nil hdigits
              rw [List.cons_append, List.cons_append, fraction, digits,
                List.takeWhile_cons_of_pos hd] at h
              cases h
  · exact hne rfl

/-- The end of a lexeme shows in the first character after it and, for an integer, in the fraction
that may follow. -/
theorem StopsAt.of_head (h : rule.StopsAt text rest) (hhead : ∀ c ∈ other.head?, c ∈ rest.head?)
    (hfraction : fraction rest = [] → fraction other = []) : rule.StopsAt text other := by
  cases rule with
  | newline => trivial
  | blank => exact fun c hc => h c (hhead c hc)
  | comment => exact fun c hc => h c (hhead c hc)
  | token kind =>
      cases kind with
      | keyword => exact fun c hc => h c (hhead c hc)
      | identifier => exact fun c hc => h c (hhead c hc)
      | integer => exact ⟨fun c hc => h.1 c (hhead c hc), hfraction h.2⟩
      | float => exact fun c hc => h c (hhead c hc)
      | string => trivial
      | operator => exact fun htext c hc => h htext c (hhead c hc)
      | punctuation => trivial

/-- A lexeme is taken as before where the source is cut off behind it. -/
theorem Takes.of_isPrefix (h : rule.Takes text rest) (hfront : other <+: rest) :
    rule.Takes text other := by
  have hhead : ∀ c ∈ other.head?, c ∈ rest.head? := by
    obtain ⟨more, rfl⟩ := hfront
    intro c hc
    obtain ⟨tail, rfl⟩ := List.head?_eq_some_iff.mp hc
    rfl
  exact takes_of_stopsAt h.fits
    (h.stopsAt.of_head hhead fun hnil => fraction_eq_nil_of_isPrefix hnil hfront)

/-- A lexeme is taken as before where more is added behind what follows it. Only a point may begin a
fraction with what is added and none without. -/
theorem Takes.append {c : Char} (h : rule.Takes text (c :: rest)) (hpoint : c ≠ '.')
    (more : List Char) : rule.Takes text (c :: (rest ++ more)) := by
  have hfraction : fraction (c :: (rest ++ more)) = [] := fraction_of_head (by simpa using hpoint)
  exact takes_of_stopsAt h.fits (h.stopsAt.of_head (fun _ hc => hc) fun _ => hfraction)

theorem operators_not_isWordChar :
    ∀ text ∈ Token.operators, text.toList.all fun c => !isWordChar c := by
  decide

theorem punctuation_not_isWordChar : Token.punctuation.all fun c => !isWordChar c := by
  decide

/-- No lexeme ends between two characters of a word. -/
theorem Takes.not_isWordChar_getLast {c : Char} (h : rule.Takes text (c :: rest))
    (hc : isWordChar c) : ∀ d ∈ text.getLast?, ¬ isWordChar d := by
  have hstops := h.stopsAt
  have hfits := h.fits
  cases rule with
  | newline =>
      cases hfits
      rintro d ⟨⟩
      decide
  | blank =>
      intro d hd hword
      have hblank := hfits.2 d (List.mem_of_getLast? hd)
      simp only [Bool.and_eq_true] at hblank
      exact not_isBlank_of_isWordChar hword hblank.1
  | comment => exact absurd (hstops c rfl) (ne_newline_of_isWordChar hc)
  | token kind =>
      cases kind with
      | keyword => exact absurd hc (hstops c rfl)
      | identifier => exact absurd hc (hstops c rfl)
      | integer => exact absurd hc (hstops.1 c rfl)
      | float => exact absurd hc (hstops c rfl)
      | string =>
          simp only [Fits, Token.Kind.Admits, String.toList_ofList] at hfits
          obtain ⟨body, rfl, _⟩ := hfits
          rw [List.getLast?_concat]
          rintro d ⟨⟩
          decide
      | operator =>
          have hsigns := List.all_eq_true.mp (operators_not_isWordChar _ hfits)
          rw [String.toList_ofList] at hsigns
          intro d hd
          simpa using hsigns d (List.mem_of_getLast? hd)
      | punctuation =>
          simp only [Fits, Token.Kind.Admits, String.toList_ofList] at hfits
          obtain ⟨sign, hmem, rfl⟩ := hfits
          rintro d ⟨⟩
          simpa using List.all_eq_true.mp punctuation_not_isWordChar sign hmem

end ExprFront.Rule
