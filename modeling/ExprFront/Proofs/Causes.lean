import ExprFront.Proofs.Endings

/-!
Why a scan fails. No rule takes the character of the error: it opens a string that is not closed, or
it begins a number that runs into a word, or it is half of an operator, or it belongs to no class
at all. The source is without error up to there.
-/

namespace ExprFront

open Rule

/-- The ways in which no rule takes a character. -/
inductive LexError.Cause where
  | openString
  | gluedNumber
  | loneSign
  | foreign

/-- Digits, without a fraction or with one. -/
def IsNumber (cs : List Char) : Prop :=
  IsDigits cs ∨ ∃ whole part, cs = whole ++ '.' :: part ∧ IsDigits whole ∧ IsDigits part

namespace LexError.Cause

/-- The second character of an operator, where the first is none on its own. -/
def partner? : Char → Option Char
  | '!' => some '='
  | '&' => some '&'
  | '|' => some '|'
  | _ => none

/-- What stands on both sides of a character that no rule takes. -/
def Explains (before : List Char) (c : Char) (after : List Char) : Cause → Prop
  | openString => c = '"' ∧ '"' ∉ after
  | gluedNumber =>
      (∀ d ∈ before.getLast?, ¬ d.isDigit) ∧ ∃ number rest, c :: after = number ++ rest ∧
        IsNumber number ∧ ∃ d ∈ rest.head?, isWordStart d
  | loneSign => ∃ d, partner? c = some d ∧ after.head? ≠ some d
  | foreign =>
      ¬ Text.isBlank c ∧ ¬ isWordChar c ∧ c ∉ ['"', '#', '!', '&', '|'] ∧
        c ∉ ['+', '-', '*', '/', '>', '<', '='] ∧ c ∉ Token.punctuation

/-- The one cause that a character can be an error for. -/
def of (c : Char) : Cause :=
  if c = '"' then openString
  else if c.isDigit then gluedNumber
  else if (partner? c).isSome then loneSign
  else foreign

variable {before after cs : List Char} {c : Char} {cause : Cause}

theorem partner?_eq_some {d : Char} (h : partner? c = some d) :
    c ∈ ['!', '&', '|'] ∧ String.ofList [c, d] ∈ Token.operators := by
  unfold partner? at h
  split at h
  · cases h
    decide
  · cases h
    decide
  · cases h
    decide
  · cases h

theorem isDigit_of_isNumber {number : List Char} (h : IsNumber number) {rest : List Char}
    (hcs : c :: after = number ++ rest) : c.isDigit := by
  have hhead {digits tail : List Char} (hdigits : IsDigits digits)
      (hcons : c :: after = digits ++ tail) : c.isDigit := by
    obtain ⟨d, ds, rfl⟩ := List.exists_cons_of_ne_nil hdigits.1
    rw [(List.cons.inj hcons).1]
    exact hdigits.2 d List.mem_cons_self
  rcases h with h | ⟨whole, part, rfl, hwhole, _⟩
  · exact hhead h hcs
  · exact hhead hwhole (hcs.trans (List.append_assoc _ _ _))

/-- The causes exclude each other by the character alone. -/
theorem eq_of_explains (h : cause.Explains before c after) : cause = of c := by
  cases cause with
  | openString => exact (if_pos h.1).symm
  | gluedNumber =>
      obtain ⟨_, number, rest, hcs, hnumber, _⟩ := h
      have hdigit := isDigit_of_isNumber hnumber hcs
      have hquote : c ≠ '"' := by
        rintro rfl
        exact absurd hdigit (by decide)
      rw [of, if_neg hquote, if_pos hdigit]
  | loneSign =>
      obtain ⟨d, hd, _⟩ := h
      obtain ⟨hsign, _⟩ := partner?_eq_some hd
      simp only [List.mem_cons, List.not_mem_nil, or_false] at hsign
      rcases hsign with rfl | rfl | rfl <;> rfl
  | foreign =>
      obtain ⟨_, hword, hsigns, _⟩ := h
      have hquote : c ≠ '"' := fun hc => hsigns (by simp [hc])
      have hdigit : ¬ c.isDigit := fun hdigit => hword (isWordChar_iff.mpr (.inr hdigit))
      have hpartner : ¬ (partner? c).isSome := by
        rw [Option.isSome_iff_exists]
        rintro ⟨d, hd⟩
        have hsign := (partner?_eq_some hd).1
        simp only [List.mem_cons, List.not_mem_nil, or_false] at hsign
        rcases hsign with rfl | rfl | rfl <;> exact hsigns (by decide)
      rw [of, if_neg hquote, if_neg hdigit, if_neg hpartner]

/-! From a character that no rule takes to its cause. -/

theorem not_isPrefix_of_operator {text : String} (h : first? table cs = none)
    (htext : text ∈ Token.operators) : ¬ text.toList <+: cs := by
  intro hfront
  have hlength : _ ≤ (reach cs .operator).length := length_le_reach htext hfront
  have hmunch : reach cs .operator = [] := munch_eq_nil_of_first? h (token .operator)
  rw [hmunch] at hlength
  exact operators_ne_nil text htext (List.length_eq_zero_iff.mp (Nat.le_zero.mp hlength))

theorem explains_openString (h : first? table ('"' :: after) = none) : '"' ∉ after := by
  intro hmem
  have hmunch := munch_eq_nil_of_first? h (token .string)
  rw [munch, string, if_pos hmem] at hmunch
  cases hmunch

/-- A letter comes after digits that a word goes on with. -/
theorem exists_isWordStart {text rest : List Char}
    (htext : (text ++ rest).takeWhile Char.isDigit = text) (hstarts : startsWord rest) :
    ∃ d ∈ rest.head?, isWordStart d := by
  cases rest with
  | nil => cases hstarts
  | cons d rest =>
      have hdigit := not_of_takeWhile_append htext d rfl
      exact ⟨d, rfl, (isWordChar_iff.mp hstarts).resolve_right hdigit⟩

theorem startsWord_of_integer_eq_nil (h : integer cs = []) (hdigits : digits cs ≠ [])
    (hfraction : fraction (afterDigits cs) = []) : startsWord (afterDigits cs) := by
  rw [integer] at h
  split at h
  · next hrefused => exact hrefused.resolve_right fun hne => hne hfraction
  · exact absurd h hdigits

theorem startsWord_of_float_eq_nil (h : float cs = []) (hdigits : digits cs ≠ []) {tail : List Char}
    (htail : afterDigits cs = '.' :: tail) (hpart : digits tail ≠ []) :
    startsWord (afterDigits tail) := by
  have hfraction : fraction ('.' :: tail) = '.' :: digits tail := if_neg hpart
  have hdrop : (digits tail ++ afterDigits tail).drop (digits tail).length = afterDigits tail :=
    List.drop_left
  rw [digits_append_afterDigits] at hdrop
  simp only [float, htail, hfraction, List.length_cons, List.drop_succ_cons, hdrop] at h
  split at h
  · next hrefused => exact (hrefused.resolve_left hdigits).resolve_left (List.cons_ne_nil _ _)
  · simp at h

theorem exists_of_fraction_ne_nil (h : fraction cs ≠ []) :
    ∃ tail, cs = '.' :: tail ∧ digits tail ≠ [] := by
  unfold fraction at h
  split at h
  · next tail =>
      split at h
      · exact absurd rfl h
      · next hdigits => exact ⟨tail, rfl, hdigits⟩
  · exact absurd rfl h

theorem explains_gluedNumber (h : first? table cs = none) (hdigits : digits cs ≠ []) :
    ∃ number rest, cs = number ++ rest ∧ IsNumber number ∧ ∃ d ∈ rest.head?, isWordStart d := by
  have hinteger : integer cs = [] := munch_eq_nil_of_first? h (token .integer)
  have hfloat : float cs = [] := munch_eq_nil_of_first? h (token .float)
  have hcs := digits_append_afterDigits cs
  have hwhole := isDigits_digits hdigits
  by_cases hfraction : fraction (afterDigits cs) = []
  · refine ⟨digits cs, afterDigits cs, hcs.symm, .inl hwhole, ?_⟩
    exact exists_isWordStart (by rw [hcs]; rfl)
      (startsWord_of_integer_eq_nil hinteger hdigits hfraction)
  · obtain ⟨tail, htail, hpart⟩ := exists_of_fraction_ne_nil hfraction
    have hrest := digits_append_afterDigits tail
    refine ⟨digits cs ++ '.' :: digits tail, afterDigits tail, ?_,
      .inr ⟨digits cs, digits tail, rfl, hwhole, isDigits_digits hpart⟩, ?_⟩
    · rw [List.append_assoc, List.cons_append, hrest, ← htail, hcs]
    · exact exists_isWordStart (by rw [hrest]; rfl)
        (startsWord_of_float_eq_nil hfloat hdigits htail hpart)

theorem single_operators : ['+', '-', '*', '/', '>', '<', '='].all
    fun c => String.ofList [c] ∈ Token.operators := by
  decide

theorem explains_foreign (h : first? table (c :: after) = none) (hquote : c ≠ '"')
    (hdigit : ¬ c.isDigit) (hpartner : partner? c = none) : foreign.Explains before c after := by
  refine ⟨?_, ?_, ?_, ?_, ?_⟩
  · intro hblank
    by_cases hc : c = '\n'
    · subst hc
      cases munch_eq_nil_of_first? h newline
    · have hmunch := munch_eq_nil_of_first? h blank
      rw [munch, List.takeWhile_cons_of_pos (by simp [hblank, hc])] at hmunch
      cases hmunch
  · intro hword
    have hstart := (isWordChar_iff.mp hword).resolve_right hdigit
    have hmunch := munch_eq_nil_of_first? h (token .identifier)
    rw [munch, word, if_pos hstart] at hmunch
    cases hmunch
  · intro hmem
    simp only [List.mem_cons, List.not_mem_nil, or_false] at hmem
    rcases hmem with rfl | rfl | hsign
    · exact hquote rfl
    · cases munch_eq_nil_of_first? h comment
    · rcases hsign with rfl | rfl | rfl <;> cases hpartner
  · intro hmem
    have hsingle := List.all_eq_true.mp single_operators c hmem
    apply not_isPrefix_of_operator h (of_decide_eq_true hsingle)
    rw [String.toList_ofList]
    exact ⟨after, rfl⟩
  · intro hmem
    have hmunch := munch_eq_nil_of_first? h (token .punctuation)
    rw [munch, punctuation, if_pos hmem] at hmunch
    cases hmunch

theorem explains_of (h : first? table (c :: after) = none)
    (hapart : isWordChar c → ∀ d ∈ before.getLast?, ¬ isWordChar d) :
    (of c).Explains before c after := by
  unfold of
  split
  · next hc =>
      subst hc
      exact ⟨rfl, explains_openString h⟩
  · next hquote =>
    split
    · next hdigit =>
        have hword := isWordChar_iff.mpr (.inr hdigit)
        have hdigits : digits (c :: after) ≠ [] := by
          rw [digits, List.takeWhile_cons_of_pos hdigit]
          exact List.cons_ne_nil _ _
        refine ⟨?_, explains_gluedNumber h hdigits⟩
        intro d hd hdigit
        exact hapart hword d hd (isWordChar_iff.mpr (.inr hdigit))
    · next hdigit =>
        split
        · next hsome =>
            obtain ⟨d, hd⟩ := Option.isSome_iff_exists.mp hsome
            refine ⟨d, hd, ?_⟩
            intro hhead
            obtain ⟨tail, rfl⟩ := List.head?_eq_some_iff.mp hhead
            apply not_isPrefix_of_operator h (partner?_eq_some hd).2
            rw [String.toList_ofList]
            exact ⟨tail, rfl⟩
        · next hnone =>
            exact explains_foreign h hquote hdigit (Option.not_isSome_iff_eq_none.mp hnone)

end LexError.Cause

namespace Token

variable {start : Position} {cs before after : List Char} {e : LexError}

/-- A scan comes to a character that no rule takes, without error up to there. -/
structure FailsAt (start : Position) (cs : List Char) (e : LexError) (before after : List Char) :
    Prop where
  split : cs = before ++ e.character :: after
  position : e.position = start.advance before
  scanned : ∃ ts, listFrom start before = .ok ts
  stuck : first? table (e.character :: after) = none
  apart : isWordChar e.character → ∀ d ∈ before.getLast?, ¬ isWordChar d

theorem FailsAt.of_takes {rule : Rule} {text rest : List Char} (h : rule.Takes text rest)
    (hrest : FailsAt (start.advance text) rest e before after) :
    FailsAt start (text ++ rest) e (text ++ before) after where
  split := by rw [hrest.split, List.append_assoc]
  position := by rw [hrest.position, Position.advance_append]
  scanned := by
    obtain ⟨ts, hts⟩ := hrest.scanned
    have htext := h.of_isPrefix ⟨_, hrest.split.symm⟩
    exact ⟨_, (listFrom_takes_eq_ok_iff htext).mpr ⟨ts, hts, rfl⟩⟩
  stuck := hrest.stuck
  apart := by
    intro hword
    cases before with
    | nil =>
        have htext := h
        rw [hrest.split] at htext
        rw [List.append_nil]
        exact htext.not_isWordChar_getLast hword
    | cons c before =>
        rw [List.getLast?_append, List.getLast?_cons, Option.some_or, ← List.getLast?_cons]
        exact hrest.apart hword

theorem exists_failsAt (h : listFrom start cs = .error e) :
    ∃ before after, FailsAt start cs e before after := by
  induction start, cs using scan_induction with
  | nil start =>
      rw [listFrom_nil] at h
      cases h
  | stuck start c cs hstuck =>
      rw [listFrom_of_stuck hstuck] at h
      cases h
      exact ⟨[], cs, rfl, rfl, ⟨[], listFrom_nil start⟩, hstuck, fun _ => nofun⟩
  | takes start rule text rest htakes ih =>
      obtain ⟨before, after, hrest⟩ := ih ((listFrom_takes_eq_error_iff htakes).mp h)
      exact ⟨text ++ before, after, hrest.of_takes htakes⟩

/-- An error names a place up to which the source is without error and the character that stands
there, and has one cause, which shows in what stands on both sides of it. -/
theorem ofSource_error_explained {source : String} (h : ofSource source = .error e) :
    ∃ before after, source.toList = before ++ e.character :: after ∧
      (∃ ts, ofSource (String.ofList before) = .ok ts) ∧ e.position = .after before ∧
      ∃ cause : LexError.Cause, cause.Explains before e.character after ∧
        ∀ other : LexError.Cause, other.Explains before e.character after → other = cause := by
  obtain ⟨before, after, hfails⟩ := exists_failsAt h
  obtain ⟨ts, hts⟩ := hfails.scanned
  refine ⟨before, after, hfails.split, ⟨ts, ?_⟩, ?_, .of e.character,
    LexError.Cause.explains_of hfails.stuck hfails.apart, fun other =>
      LexError.Cause.eq_of_explains⟩
  · rw [ofSource, String.toList_ofList]
    exact hts
  · rw [hfails.position, Position.start_advance]

/-- A number that is refused for the letter after its fraction. -/
theorem ofSource_error_explained_gluedFloat :
    ofSource "x = 12.5y" = .error ⟨⟨1, 5⟩, '1'⟩ ∧
      ∃ before after, "x = 12.5y".toList = before ++ '1' :: after ∧
        (∃ ts, ofSource (String.ofList before) = .ok ts) ∧ ⟨1, 5⟩ = Position.after before ∧
        ∃ cause : LexError.Cause, cause.Explains before '1' after ∧
          ∀ other : LexError.Cause, other.Explains before '1' after → other = cause := by
  have h : ofSource "x = 12.5y" = .error ⟨⟨1, 5⟩, '1'⟩ := by decide +kernel
  exact ⟨h, ofSource_error_explained h⟩

end Token

end ExprFront
