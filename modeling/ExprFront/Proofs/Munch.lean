import ExprFront.Proofs.Continuation
import ExprFront.Proofs.Scanning

/-!
Maximal munch. The rules never compare lengths: they are tried in order, and a number is refused
where more of it follows. What they take is still the longest text of any lexical class, and its
kind is the only one that it can have.
-/

namespace ExprFront

/-- The texts of the lexical classes: words, whether keywords or not, numbers without and with a
fraction, strings, operators and signs. -/
def Token.InClass (text : String) : Prop :=
  IsWord text.toList ∨ Kind.integer.Admits text ∨ Kind.float.Admits text ∨
    Kind.string.Admits text ∨ Kind.operator.Admits text ∨ Kind.punctuation.Admits text

/-- The longest text of a lexical class that some characters begin with. -/
structure Token.Longest (text : String) (cs : List Char) : Prop where
  inClass : InClass text
  isPrefix : text.toList <+: cs
  longest : ∀ other, InClass other → other.toList <+: cs → other.length ≤ text.length

/-- A token stands between two parts of a source as maximal munch has it: it has the longest text
that begins there, and the one kind that this text can have. No number runs into a word. -/
structure Token.Munched (t : Token) (before rest : List Char) : Prop where
  position : t.position = .after before
  longest : Longest t.text (t.text.toList ++ rest)
  keyword : t.kind = .keyword ↔ t.text ∈ keywords
  kind : ∀ kind : Kind, kind.Admits t.text ↔ kind = t.kind
  apart : t.kind = .integer ∨ t.kind = .float → ∀ c ∈ rest.head?, ¬ Rule.isWordChar c

namespace Token

theorem inClass_iff {text : String} : InClass text ↔ ∃ kind : Kind, kind.Admits text := by
  constructor
  · intro h
    rcases h with hword | h | h | h | h | h
    · by_cases hkeyword : text ∈ keywords
      · exact ⟨.keyword, hkeyword⟩
      · exact ⟨.identifier, hword, hkeyword⟩
    · exact ⟨_, h⟩
    · exact ⟨_, h⟩
    · exact ⟨_, h⟩
    · exact ⟨_, h⟩
    · exact ⟨_, h⟩
  · rintro ⟨kind, h⟩
    cases kind with
    | keyword => exact .inl (Rule.keywords_isWord text h)
    | identifier => exact .inl h.1
    | integer => exact .inr (.inl h)
    | float => exact .inr (.inr (.inl h))
    | string => exact .inr (.inr (.inr (.inl h)))
    | operator => exact .inr (.inr (.inr (.inr (.inl h))))
    | punctuation => exact .inr (.inr (.inr (.inr (.inr h))))

/-! Kinds. -/

theorem takes_alone {kind : Kind} {text : String} (h : kind.Admits text) :
    (Rule.token kind).Takes text.toList [] :=
  Rule.takes_of_admits h (by cases kind <;> simp [Kind.EndsAt])

/-- A text has no more than one kind. -/
theorem admits_iff_eq {kind other : Kind} {text : String} (h : kind.Admits text) :
    other.Admits text ↔ other = kind := by
  constructor
  · intro hother
    have hfirst := (takes_alone hother).first
    rw [(takes_alone h).first] at hfirst
    exact (Rule.token.inj (Option.some.inj hfirst)).symm
  · rintro rfl
    exact h

theorem ofChar?_of_admits {kind : Kind} {text : String} (h : kind.Admits text) {c : Char}
    (hc : text.toList.head? = some c) : Rule.ofChar? c = some (Rule.token kind).family := by
  obtain ⟨cs, hcs⟩ := List.head?_eq_some_iff.mp hc
  have hmunch := (takes_alone h).munch
  rw [List.append_nil, hcs] at hmunch
  have hne : (Rule.token kind).munch (c :: cs) ≠ [] := by
    rw [hmunch]
    exact List.cons_ne_nil c cs
  exact Rule.ofChar?_of_munch hne

theorem family_eq_of_prefix {kind other : Kind} {text more : String} {cs : List Char}
    (h : kind.Admits text) (hother : other.Admits more) (htext : text.toList <+: cs)
    (hmore : more.toList <+: cs) : (Rule.token other).family = (Rule.token kind).family := by
  obtain ⟨c, text', hc⟩ := List.exists_cons_of_ne_nil (Rule.ne_nil_of_admits h)
  obtain ⟨d, more', hd⟩ := List.exists_cons_of_ne_nil (Rule.ne_nil_of_admits hother)
  have hcfamily := ofChar?_of_admits h (by rw [hc]; rfl)
  have hdfamily := ofChar?_of_admits hother (by rw [hd]; rfl)
  rw [hc] at htext
  rw [hd] at hmore
  obtain ⟨rest, rfl⟩ := htext
  have hcd : d = c := (List.cons_prefix_cons.mp hmore).1
  rw [hcd, hcfamily] at hdfamily
  exact (Option.some.inj hdfamily).symm

end Token

namespace Rule

/-! Reach. -/

/-- The longest text at the front of the class of a kind, or of the class that shares its first
characters. -/
def reach (cs : List Char) : Token.Kind → List Char
  | .keyword | .identifier => word cs
  | .integer | .float => digits cs ++ fraction (afterDigits cs)
  | .string => string cs
  | .operator => operator cs
  | .punctuation => punctuation cs

theorem reach_eq_of_family {kind other : Token.Kind}
    (h : (token other).family = (token kind).family) (cs : List Char) :
    reach cs other = reach cs kind := by
  rcases family_eq_family h with heq | ⟨hother, hkind⟩ | ⟨hother, hkind⟩ | ⟨hother, hkind⟩ |
    ⟨hother, hkind⟩
  · rw [token.inj heq]
  · rw [token.inj hother, token.inj hkind]
    rfl
  · rw [token.inj hother, token.inj hkind]
    rfl
  · rw [token.inj hother, token.inj hkind]
    rfl
  · rw [token.inj hother, token.inj hkind]
    rfl

theorem Takes.reach_eq {kind : Token.Kind} {text rest : List Char}
    (h : (token kind).Takes text rest) : reach (text ++ rest) kind = text := by
  have hne := h.ne_nil
  have hmunch := h.munch
  cases kind with
  | keyword =>
      rw [Rule.munch] at hmunch
      split at hmunch
      · exact hmunch
      · exact absurd hmunch.symm hne
  | integer =>
      rw [Rule.munch, integer] at hmunch
      split at hmunch
      · exact absurd hmunch.symm hne
      · next hnot =>
          have hfraction : fraction (afterDigits (text ++ rest)) = [] :=
            Decidable.byContradiction fun hfraction => hnot (.inr hfraction)
          rw [reach, hfraction, List.append_nil, hmunch]
  | float =>
      simp only [Rule.munch, float] at hmunch
      split at hmunch
      · exact absurd hmunch.symm hne
      · exact hmunch
  | identifier => exact hmunch
  | string => exact hmunch
  | operator => exact hmunch
  | punctuation => exact hmunch

theorem length_le_takeWhile {p : Char → Bool} {text : List Char} (h : ∀ c ∈ text, p c)
    (rest : List Char) : text.length ≤ ((text ++ rest).takeWhile p).length := by
  rw [List.takeWhile_append_of_pos h, List.length_append]
  exact Nat.le_add_right _ _

theorem length_le_word {text : List Char} (h : IsWord text) (rest : List Char) :
    text.length ≤ (word (text ++ rest)).length := by
  cases text with
  | nil => exact absurd h id
  | cons c text =>
      rw [List.cons_append, word, if_pos h.1]
      exact Nat.succ_le_succ (length_le_takeWhile h.2 rest)

theorem length_le_decimal {whole part : List Char} (hwhole : IsDigits whole)
    (hpart : IsDigits part) (rest : List Char) :
    (whole ++ '.' :: part).length ≤
      (reach (whole ++ '.' :: (part ++ rest)) .float).length := by
  have hpoint : ∀ c ∈ ('.' :: (part ++ rest)).head?, ¬ c.isDigit := by
    intro c hc
    cases hc
    decide
  have hlength : part.length ≤ (digits (part ++ rest)).length := length_le_takeWhile hpart.2 rest
  have hne : digits (part ++ rest) ≠ [] := by
    intro hnil
    rw [hnil] at hlength
    exact hpart.1 (List.length_eq_zero_iff.mp (Nat.le_zero.mp hlength))
  rw [reach, digits, takeWhile_append_of_end hwhole.2 hpoint, afterDigits,
    dropWhile_append_of_end hwhole.2 hpoint, fraction, if_neg hne]
  simp only [List.length_append, List.length_cons]
  omega

/-- Where no text of a list begins a later one, the first that some characters begin with is the
longest. -/
theorem length_le_find? {texts : List (List Char)} (h : texts.Pairwise fun a b => ¬ a <+: b)
    {text cs : List Char} (hmem : text ∈ texts) (hfront : text <+: cs) :
    text.length ≤ ((texts.find? (·.isPrefixOf cs)).getD []).length := by
  induction h with
  | nil => exact absurd hmem List.not_mem_nil
  | @cons first texts hfirst _ ih =>
      by_cases htakes : first <+: cs
      · have hfound : first.isPrefixOf cs = true := List.isPrefixOf_iff_prefix.mpr htakes
        rw [List.find?_cons, hfound]
        rcases List.mem_cons.mp hmem with rfl | hlater
        · exact Nat.le_refl _
        · apply Nat.le_of_not_lt
          intro hlonger
          -- Of two texts at the same place the shorter begins the longer.
          exact hfirst text hlater
            (List.prefix_of_prefix_length_le htakes hfront (Nat.le_of_lt hlonger))
      · have hpassed : first.isPrefixOf cs = false := by
          rw [Bool.eq_false_iff, Ne, List.isPrefixOf_iff_prefix]
          exact htakes
        rw [List.find?_cons, hpassed]
        rcases List.mem_cons.mp hmem with rfl | hlater
        · exact absurd hfront htakes
        · exact ih hlater

theorem operators_pairwise :
    (Token.operators.map String.toList).Pairwise fun a b => ¬ a <+: b := by
  decide

theorem length_le_reach {kind : Token.Kind} {text : String} {cs : List Char}
    (h : kind.Admits text) (hfront : text.toList <+: cs) :
    text.toList.length ≤ (reach cs kind).length := by
  obtain ⟨rest, rfl⟩ := id hfront
  cases kind with
  | keyword => exact length_le_word (keywords_isWord text h) rest
  | identifier => exact length_le_word h.1 rest
  | integer =>
      have hdigits := length_le_takeWhile h.2 rest
      rw [reach, List.length_append]
      exact Nat.le_add_right_of_le hdigits
  | float =>
      obtain ⟨whole, part, htext, hwhole, hpart⟩ := h
      rw [htext, List.append_assoc]
      exact length_le_decimal hwhole hpart rest
  | string =>
      obtain ⟨body, htext, hquote⟩ := h
      have hstring := string_append hquote rest
      rw [htext, List.append_assoc, reach]
      exact Nat.le_of_eq (congrArg List.length hstring.symm)
  | operator => exact length_le_find? operators_pairwise (List.mem_map_of_mem h) hfront
  | punctuation =>
      obtain ⟨c, hmem, htext⟩ := h
      have hsign : punctuation (c :: rest) = [c] := if_pos hmem
      rw [htext, List.singleton_append, reach]
      exact Nat.le_of_eq (congrArg List.length hsign.symm)

/-! What follows a number. -/

theorem Takes.not_startsWord {kind : Token.Kind} {text rest : List Char}
    (h : (token kind).Takes text rest) (hkind : kind = .integer ∨ kind = .float) :
    ¬ startsWord rest := by
  have hne := h.ne_nil
  have hmunch := h.munch
  have happend := digits_append_afterDigits (text ++ rest)
  rcases hkind with rfl | rfl
  · rw [Rule.munch, integer] at hmunch
    split at hmunch
    · exact absurd hmunch.symm hne
    · next hnot =>
        rw [hmunch] at happend
        rw [List.append_cancel_left happend] at hnot
        exact fun hstarts => hnot (.inl hstarts)
  · simp only [Rule.munch, float] at hmunch
    split at hmunch
    · exact absurd hmunch.symm hne
    · next hnot =>
        have hfraction := List.prefix_iff_eq_append.mp
          (fraction_isPrefix (afterDigits (text ++ rest)))
        rw [← hfraction, ← List.append_assoc, hmunch] at happend
        rw [List.append_cancel_left happend] at hnot
        exact fun hstarts => hnot (.inr (.inr hstarts))

end Rule

namespace Token

/-- What a rule for tokens takes is the longest text of any class. -/
theorem longest_of_takes {kind : Kind} {text : String} {rest : List Char}
    (h : (Rule.token kind).Takes text.toList rest) : Longest text (text.toList ++ rest) := by
  have hadmits := h.admits
  refine ⟨inClass_iff.mpr ⟨kind, hadmits⟩, List.prefix_append _ _, ?_⟩
  intro other hother hfront
  obtain ⟨otherKind, hother⟩ := inClass_iff.mp hother
  -- Both texts begin with the same character, so they can only be of classes that share it.
  have hfamily := family_eq_of_prefix hadmits hother (List.prefix_append _ rest) hfront
  have hlength := Rule.length_le_reach hother hfront
  rwa [Rule.reach_eq_of_family hfamily, h.reach_eq, String.length_toList,
    String.length_toList] at hlength

theorem munched_of_takes {t : Token} {before rest : List Char}
    (hposition : t.position = Position.start.advance before)
    (h : (Rule.token t.kind).Takes t.text.toList rest) : t.Munched before rest := by
  have hkind : ∀ kind : Kind, kind.Admits t.text ↔ kind = t.kind :=
    fun _ => admits_iff_eq h.admits
  refine ⟨?_, longest_of_takes h, ?_, hkind, ?_⟩
  · rw [hposition, Position.start_advance]
  · rw [eq_comm]
    exact (hkind .keyword).symm
  · intro hnumber c hc
    obtain ⟨tail, rfl⟩ := List.head?_eq_some_iff.mp hc
    exact h.not_startsWord hnumber

/-- In a source without error each token has the longest text of any lexical class that begins at
its place, and the one kind that this text can have. -/
theorem ofSource_longest {source : String} {ts : List Token} (h : ofSource source = .ok ts) :
    ∀ t ∈ ts, ∃ before rest, source.toList = before ++ (t.text.toList ++ rest) ∧
      t.Munched before rest := by
  intro t ht
  obtain ⟨before, rest, hsource, hposition, htakes⟩ := exists_takes_of_mem h t ht
  exact ⟨before, rest, hsource, munched_of_takes hposition htakes⟩

/-- Two operators, the first of which also begins with a third, and a float. -/
theorem ofSource_longest_equalsSigns :
    let operator : Token := ⟨.operator, "==", ⟨1, 5⟩⟩
    ofSource "if_ ===1.50" =
        .ok [⟨.identifier, "if_", ⟨1, 1⟩⟩, operator, ⟨.operator, "=", ⟨1, 7⟩⟩,
          ⟨.float, "1.50", ⟨1, 8⟩⟩] ∧
      ∃ before rest, "if_ ===1.50".toList = before ++ ("==".toList ++ rest) ∧
        operator.Munched before rest := by
  intro operator
  have h : ofSource "if_ ===1.50" =
      .ok [⟨.identifier, "if_", ⟨1, 1⟩⟩, operator, ⟨.operator, "=", ⟨1, 7⟩⟩,
        ⟨.float, "1.50", ⟨1, 8⟩⟩] := by
    decide +kernel
  exact ⟨h, ofSource_longest h operator (by simp)⟩

end Token

end ExprFront
