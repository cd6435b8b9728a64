import ExprFront.Expr.Value
import ExprFront.Proofs.Depth
import ExprFront.Proofs.Grammar.WellFormed
import ExprFront.Proofs.Rounding

/-!
The values of literals. Digits with or without a fraction are a numeral, whose sign is not set and
which is no word; so wherever a literal stands in a program that was read, it has a value.
-/

namespace ExprFront

/-! Numerals of digits. -/

namespace Numeral

variable {negative : Bool} {cs whole part rest : List Char}

theorem splitSign_of_isDigits (h : IsDigits whole) (rest : List Char) :
    splitSign (whole ++ rest) = (false, whole ++ rest) := by
  obtain ⟨c, cs, rfl⟩ := List.exists_cons_of_ne_nil h.1
  have hc := h.2 c List.mem_cons_self
  have hminus : c ≠ '-' := by
    rintro rfl
    exact absurd hc (by decide)
  have hplus : c ≠ '+' := by
    rintro rfl
    exact absurd hc (by decide)
  simp [splitSign, hminus, hplus]

theorem toLower_of_isDigit {c : Char} (h : c.isDigit) : c.toLower = c := by
  apply dif_neg
  rintro ⟨hupper, _⟩
  have hletter : 65 ≤ c.toNat := UInt32.le_iff_toNat_le.mp hupper
  have hdigit := (Rule.isDigit_iff.mp h).2
  omega

theorem lower_ne_word (h : IsDigits whole) (rest : List Char) {word : String}
    (hword : word.toList.head?.any Char.isDigit = false) :
    String.ofList ((whole ++ rest).map Char.toLower) ≠ word := by
  obtain ⟨c, cs, rfl⟩ := List.exists_cons_of_ne_nil h.1
  have hc := h.2 c List.mem_cons_self
  rintro rfl
  rw [String.toList_ofList, List.cons_append, List.map_cons, List.head?_cons, Option.any_some,
    toLower_of_isDigit hc, hc] at hword
  cases hword

/-- A text that begins with digits is no word, so that a fraction and an exponent are all that can
follow them. -/
theorem unsigned?_of_isDigits (h : IsDigits whole) (hrest : ∀ c ∈ rest.head?, ¬ c.isDigit) :
    unsigned? negative (whole ++ rest) =
      (exponent? (splitFraction rest).2).map fun exponent =>
        decimal negative (ofDigits (whole ++ (splitFraction rest).1))
          (exponent - (splitFraction rest).1.length) := by
  have hinf := lower_ne_word h rest (by decide : "inf".toList.head?.any Char.isDigit = false)
  have hinfinity :=
    lower_ne_word h rest (by decide : "infinity".toList.head?.any Char.isDigit = false)
  simp only [unsigned?, Rule.takeWhile_append_of_end h.2 hrest,
    Rule.dropWhile_append_of_end h.2 hrest]
  rw [if_neg (lower_ne_word h rest (by decide)), if_neg (not_or.mpr ⟨hinf, hinfinity⟩),
    if_neg fun hnone => h.1 hnone.1]

theorem ofText?_of_isDigits (h : IsDigits whole) (rest : List Char) :
    ofText? (whole ++ rest) = unsigned? false (whole ++ rest) := by
  simp only [ofText?, splitSign_of_isDigits h rest]

theorem ofText?_integer (h : IsDigits cs) : ofText? cs = some (decimal false (ofDigits cs) 0) := by
  have hunsigned : unsigned? false (cs ++ []) = some (decimal false (ofDigits (cs ++ [])) 0) :=
    unsigned?_of_isDigits h nofun
  rw [← ofText?_of_isDigits h, List.append_nil] at hunsigned
  exact hunsigned

theorem ofText?_float (hwhole : IsDigits whole) (hpart : IsDigits part) :
    ofText? (whole ++ '.' :: part) =
      some (decimal false (ofDigits (whole ++ part)) (-part.length)) := by
  have hsplit : splitFraction ('.' :: part) = (part, []) := by
    have hend : ∀ c ∈ ([] : List Char).head?, ¬ c.isDigit := nofun
    have htake := Rule.takeWhile_append_of_end hpart.2 hend
    have hdrop := Rule.dropWhile_append_of_end hpart.2 hend
    rw [List.append_nil] at htake hdrop
    rw [splitFraction, htake, hdrop]
  have hpoint : ∀ c ∈ ('.' :: part).head?, ¬ c.isDigit := by
    rintro c hc
    obtain rfl : '.' = c := Option.some.inj hc
    decide
  rw [ofText?_of_isDigits hwhole, unsigned?_of_isDigits hwhole hpoint, hsplit]
  simp only [exponent?, Option.map_some, Int.zero_sub]

end Numeral

/-! Parts of expressions. -/

namespace Expr

theorem SpelledList.of_mem {e : Expr} : ∀ {es : List Expr}, SpelledList es → e ∈ es → e.Spelled
  | _ :: _, h, hmem => by
      rcases List.mem_cons.mp hmem with rfl | hmem
      · exact h.1
      · exact SpelledList.of_mem h.2 hmem

theorem Path.spelled {e part : Expr} {steps : List Edge} (h : e.Path steps part)
    (he : e.Spelled) : part.Spelled := by
  induction h with
  | here e => exact he
  | operand _ ih => exact ih he
  | argument hmem _ ih => exact ih (SpelledList.of_mem he.2 hmem)
  | left _ ih => exact ih he.1
  | right _ ih => exact ih he.2

/-- A number that is spelled as one has a value, and its sign is not set. -/
theorem exists_value_of_spelled {text : String} {isFloat : Bool} (h : (number text isFloat).Spelled) :
    ∃ v, (number text isFloat).value? = some v ∧ Double.Signed false v := by
  cases isFloat with
  | false =>
      refine ⟨_, ?_, Double.signed_ofDecimal false (Numeral.ofDigits text.toList) 0⟩
      rw [value?, Numeral.ofText?_integer h]
      rfl
  | true =>
      obtain ⟨whole, part, htext, hwhole, hpart⟩ := h
      refine ⟨_, ?_, Double.signed_ofDecimal false (Numeral.ofDigits (whole ++ part)) (-part.length)⟩
      rw [value?, htext, Numeral.ofText?_float hwhole hpart]
      rfl

end Expr

namespace Statement

mutual

theorem Spelled.values : ∀ {s : Statement}, s.Spelled → ∀ e ∈ s.values, e.Spelled
  | assignment _ _, h => List.forall_mem_singleton.mpr h.2
  | definition _ _ _, h => SpelledList.valuesList h.2.2
  | returning _, h => List.forall_mem_singleton.mpr h
  | expression _, h => List.forall_mem_singleton.mpr h

theorem SpelledList.valuesList : ∀ {ss : List Statement}, SpelledList ss →
    ∀ e ∈ Statement.valuesList ss, e.Spelled
  | [], _ => List.forall_mem_nil _
  | _ :: _, h => List.forall_mem_append.mpr ⟨Spelled.values h.1, SpelledList.valuesList h.2⟩

end

end Statement

namespace Program

theorem WellFormed.spelled_of_hasPart {p : Program} (h : p.WellFormed) {x : Expr}
    (hx : p.HasPart x) : x.Spelled := by
  obtain ⟨e, he, steps, hpath⟩ := hx
  exact hpath.spelled (Statement.SpelledList.valuesList h.spelled e he)

/-- Of the parts of a program that is read from a source just the numbers have values. A value is a
number of the format without a sign, or infinity: in bits, none is above infinity, as what is no
number would be and what has a sign. -/
theorem value?_of_ofSource {source : String} {p : Program} (h : ofSource source = .ok p) {x : Expr}
    (hx : p.HasPart x) :
    (x.value?.isSome ↔ ∃ text isFloat, x = .number text isFloat) ∧
      ∀ v ∈ x.value?, v ≠ .nan ∧ v.isNegative = false ∧
        v.bits ≤ (Double.infinity false).bits := by
  obtain ⟨ts, hts, hp⟩ := ofSource_eq_ok_iff.mp h
  have hspelled := (wellFormed_of_ofTokens hp (Token.admits_of_listFrom hts)).spelled_of_hasPart hx
  cases x with
  | number text isFloat =>
      obtain ⟨v, hv, hsigned⟩ := Expr.exists_value_of_spelled hspelled
      rw [hv]
      refine ⟨⟨fun _ => ⟨text, isFloat, rfl⟩, fun _ => rfl⟩, ?_⟩
      intro w hw
      obtain rfl : v = w := Option.some.inj hw
      exact ⟨hsigned.ne_nan, hsigned.isNegative_eq, hsigned.bits_le⟩
  | var _ | unary _ _ | binary _ _ _ | call _ _ => simp [Expr.value?]

/-- A tenth comes to the number nearest to it, and the sign before it is not its own. -/
theorem value?_of_ofSource_tenth :
    let x : Expr := .number "0.1" true
    let p : Program := ⟨[.expression (.call "f" [.unary .minus x])]⟩
    ofSource "f(-0.1)" = .ok p ∧ p.HasPart x ∧
      x.value? = some (.finite false 7205759403792794 (-56)) ∧
      (x.value?.isSome ↔ ∃ text isFloat, x = .number text isFloat) ∧
      ∀ v ∈ x.value?, v ≠ .nan ∧ v.isNegative = false ∧ v.bits ≤ (Double.infinity false).bits := by
  intro x p
  have hp : ofSource "f(-0.1)" = .ok p := by decide +kernel
  have hx : p.HasPart x :=
    ⟨_, List.mem_singleton_self _, _,
      .argument (List.mem_singleton_self _) (.operand (.here x))⟩
  have hvalue : x.value? = some (.finite false 7205759403792794 (-56)) := by decide +kernel
  exact ⟨hp, hx, hvalue, value?_of_ofSource hp hx⟩

end Program

end ExprFront
