import ExprFront.Proofs.Continuation
import ExprFront.Proofs.Scanning

/-!
Sources one below the other. No token but a string goes on over a newline, so what follows a
newline has no say in how the text before it is scanned, unless that text opens a string and does
not close it. The tokens below a source are those that the lower text has on its own, moved down.
-/

namespace ExprFront

namespace Rule

/-! Rules before a newline. -/

theorem takeWhile_append_of_not {p : Char → Bool} {c : Char} (h : ¬ p c) (cs rest : List Char) :
    (cs ++ c :: rest).takeWhile p = cs.takeWhile p := by
  induction cs with
  | nil => exact List.takeWhile_cons_of_neg h
  | cons d cs ih => rw [List.cons_append, List.takeWhile_cons, List.takeWhile_cons, ih]

theorem dropWhile_append_of_not {p : Char → Bool} {c : Char} (h : ¬ p c) (cs rest : List Char) :
    (cs ++ c :: rest).dropWhile p = cs.dropWhile p ++ c :: rest := by
  induction cs with
  | nil => exact List.dropWhile_cons_of_neg h
  | cons d cs ih =>
      rw [List.cons_append, List.dropWhile_cons, List.dropWhile_cons, ih]
      split <;> rfl

theorem not_isWordChar_newline : ¬ isWordChar '\n' := by decide

theorem not_isDigit_newline : ¬ '\n'.isDigit := by decide

theorem word_append_newline (cs rest : List Char) : word (cs ++ '\n' :: rest) = word cs := by
  cases cs with
  | nil => rfl
  | cons c cs =>
      rw [List.cons_append, word, word, takeWhile_append_of_not not_isWordChar_newline]

theorem digits_append_newline (cs rest : List Char) :
    digits (cs ++ '\n' :: rest) = digits cs :=
  takeWhile_append_of_not not_isDigit_newline cs rest

theorem afterDigits_append_newline (cs rest : List Char) :
    afterDigits (cs ++ '\n' :: rest) = afterDigits cs ++ '\n' :: rest :=
  dropWhile_append_of_not not_isDigit_newline cs rest

theorem startsWord_append_newline (cs rest : List Char) :
    startsWord (cs ++ '\n' :: rest) = startsWord cs := by
  cases cs with
  | nil => rfl
  | cons c cs => rfl

theorem fraction_append_newline (cs rest : List Char) :
    fraction (cs ++ '\n' :: rest) = fraction cs := by
  cases cs with
  | nil => rfl
  | cons c cs =>
      by_cases hc : c = '.'
      · subst hc
        rw [List.cons_append, fraction, fraction, digits_append_newline]
      · rw [fraction_of_head (by simpa using hc), fraction_of_head (by simpa using hc)]

theorem integer_append_newline (cs rest : List Char) :
    integer (cs ++ '\n' :: rest) = integer cs := by
  rw [integer, integer, afterDigits_append_newline, startsWord_append_newline,
    fraction_append_newline, digits_append_newline]

theorem float_append_newline (cs rest : List Char) : float (cs ++ '\n' :: rest) = float cs := by
  have hlength := (fraction_isPrefix (afterDigits cs)).length_le
  simp only [float, digits_append_newline, afterDigits_append_newline, fraction_append_newline,
    List.drop_append_of_le_length hlength, startsWord_append_newline]

theorem operators_not_newline : ∀ op ∈ Token.operators, '\n' ∉ op.toList := by
  decide

theorem isPrefixOf_append_newline {text : List Char} (h : '\n' ∉ text) (cs rest : List Char) :
    text.isPrefixOf (cs ++ '\n' :: rest) = text.isPrefixOf cs := by
  induction text generalizing cs with
  | nil => simp
  | cons c text ih =>
      rw [List.mem_cons, not_or] at h
      cases cs with
      | nil => simp [List.isPrefixOf_cons_cons, Ne.symm h.1]
      | cons d cs =>
          rw [List.cons_append, List.isPrefixOf_cons_cons, List.isPrefixOf_cons_cons, ih h.2]

theorem find?_isPrefixOf_append_newline {texts : List (List Char)}
    (h : ∀ text ∈ texts, '\n' ∉ text) (cs rest : List Char) :
    texts.find? (·.isPrefixOf (cs ++ '\n' :: rest)) = texts.find? (·.isPrefixOf cs) := by
  induction texts with
  | nil => rfl
  | cons text texts ih =>
      rw [List.forall_mem_cons] at h
      rw [List.find?_cons, List.find?_cons, isPrefixOf_append_newline h.1, ih h.2]

theorem operator_append_newline (cs rest : List Char) :
    operator (cs ++ '\n' :: rest) = operator cs := by
  have htexts : ∀ text ∈ Token.operators.map String.toList, '\n' ∉ text := by
    rw [List.forall_mem_map]
    exact operators_not_newline
  rw [operator, operator, find?_isPrefixOf_append_newline htexts]

/-- The text opens a string at its front, which is closed, if at all, only in what follows. -/
def OpensString (cs rest : List Char) : Prop :=
  ∃ tail, cs = '"' :: tail ∧ '"' ∉ tail ∧ '"' ∈ rest

theorem string_of_ne {c : Char} (h : c ≠ '"') (cs : List Char) : string (c :: cs) = [] := by
  unfold string
  split
  · next hcons =>
      cases hcons
      exact absurd rfl h
  · rfl

theorem string_append_newline {cs rest : List Char} (h : ¬ OpensString cs rest) :
    string (cs ++ '\n' :: rest) = string cs := by
  cases cs with
  | nil => rfl
  | cons c tail =>
      by_cases hc : c = '"'
      · subst hc
        by_cases htail : '"' ∈ tail
        · obtain ⟨body, more, rfl, hbody⟩ := List.eq_append_cons_of_mem htail
          rw [List.cons_append, List.append_assoc, List.cons_append, string_append hbody,
            string_append hbody]
        · have hrest : '"' ∉ rest := fun hrest => h ⟨tail, rfl, htail, hrest⟩
          rw [List.cons_append, string, string, if_neg htail, if_neg (by simp [htail, hrest])]
      · rw [List.cons_append, string_of_ne hc, string_of_ne hc]

theorem lineComment_append_newline (cs rest : List Char) :
    lineComment (cs ++ '\n' :: rest) = lineComment cs := by
  cases cs with
  | nil => rfl
  | cons c cs =>
      by_cases hc : c = '#'
      · subst hc
        rw [List.cons_append, lineComment, lineComment, takeWhile_append_of_not (by decide)]
      · simp [lineComment, hc]

/-- What follows a newline has no say in what a rule takes before it. -/
theorem munch_append_newline (rule : Rule) {cs rest : List Char} (hcs : cs ≠ [])
    (hstring : ¬ OpensString cs rest) : rule.munch (cs ++ '\n' :: rest) = rule.munch cs := by
  cases rule with
  | newline =>
      obtain ⟨c, cs, rfl⟩ := List.exists_cons_of_ne_nil hcs
      rfl
  | blank => exact takeWhile_append_of_not (by decide) cs rest
  | comment => exact lineComment_append_newline cs rest
  | token kind =>
      cases kind with
      | keyword =>
          rw [munch, munch, word_append_newline]
      | identifier => exact word_append_newline cs rest
      | integer => exact integer_append_newline cs rest
      | float => exact float_append_newline cs rest
      | string => exact string_append_newline hstring
      | operator => exact operator_append_newline cs rest
      | punctuation =>
          obtain ⟨c, cs, rfl⟩ := List.exists_cons_of_ne_nil hcs
          rfl

theorem first?_append_newline (rules : List Rule) {cs rest : List Char} (hcs : cs ≠ [])
    (hstring : ¬ OpensString cs rest) : first? rules (cs ++ '\n' :: rest) = first? rules cs := by
  simp only [first?, munch_append_newline _ hcs hstring]

theorem Takes.not_opensString {rule : Rule} {text rest : List Char} (h : rule.Takes text rest)
    (more : List Char) : ¬ OpensString (text ++ rest) more := by
  rintro ⟨tail, hcs, htail, _⟩
  have hmunch := munch_ne_nil_of_first? h.first
  rw [hcs] at hmunch
  have hstring : rule.family = (token .string).family :=
    Option.some.inj (ofChar?_of_munch hmunch).symm
  have hrule : rule = token .string := by simpa using family_eq_family hstring
  rw [hrule, Rule.munch, Rule.string, if_neg htail] at hmunch
  exact hmunch rfl

theorem Takes.append_newline {rule : Rule} {text rest : List Char} (h : rule.Takes text rest)
    (more : List Char) : rule.Takes text (rest ++ '\n' :: more) := by
  have hne : text ++ rest ≠ [] := by simp [h.ne_nil]
  have hstring := h.not_opensString more
  refine ⟨?_, ?_⟩
  · rw [← List.append_assoc, first?_append_newline table hne hstring, h.first]
  · rw [← List.append_assoc, munch_append_newline rule hne hstring, h.munch]

end Rule

/-! Places further down. -/

/-- The place in the same column some lines further down. -/
def Position.lower (p : Position) (lines : Nat) : Position :=
  ⟨p.line + lines, p.column⟩

def Token.lower (t : Token) (lines : Nat) : Token :=
  ⟨t.kind, t.text, t.position.lower lines⟩

def LexError.lower (e : LexError) (lines : Nat) : LexError :=
  ⟨e.position.lower lines, e.character⟩

theorem Position.lower_step (p : Position) (lines : Nat) (c : Char) :
    (p.lower lines).step c = (p.step c).lower lines := by
  by_cases hc : c = '\n'
  · subst hc
    exact Position.ext (Nat.add_right_comm _ _ _) rfl
  · rw [step_of_ne hc, step_of_ne hc]
    rfl

theorem Position.lower_advance (p : Position) (lines : Nat) (text : List Char) :
    (p.lower lines).advance text = (p.advance text).lower lines := by
  induction text generalizing p with
  | nil => rfl
  | cons c text ih => rw [advance_cons, advance_cons, lower_step, ih]

/-- A newline after a text leads to where the next source begins, further down by the lines of the
text. -/
theorem Position.advance_newline (text : List Char) :
    (start.advance text).step '\n' = start.lower (1 + text.count '\n') := by
  apply Position.ext
  · rw [step_newline, advance_line]
    change 1 + text.count '\n' + 1 = 1 + (1 + text.count '\n')
    omega
  · rfl

namespace Token

open Rule

variable {start : Position} {cs : List Char} {ts : List Token} {e : LexError}

theorem token?_lower (rule : Rule) (text : List Char) (start : Position) (lines : Nat) :
    Lexeme.token? ⟨rule, text, start.lower lines⟩ =
      (Lexeme.token? ⟨rule, text, start⟩).map (·.lower lines) := by
  cases rule <;> rfl

/-- A text that begins further down has the same tokens, and the same error, as far down. -/
theorem listFrom_lower (start : Position) (lines : Nat) (cs : List Char) :
    listFrom (start.lower lines) cs =
      ((listFrom start cs).map (List.map (·.lower lines))).mapError (·.lower lines) := by
  induction start, cs using scan_induction with
  | nil start =>
      rw [listFrom_nil, listFrom_nil]
      rfl
  | stuck start c cs hstuck =>
      rw [listFrom_of_stuck hstuck, listFrom_of_stuck hstuck]
      rfl
  | takes start rule text rest htakes ih =>
      rw [listFrom_of_takes htakes, listFrom_of_takes htakes, Position.lower_advance, ih,
        token?_lower]
      cases listFrom (start.advance text) rest with
      | error e => rfl
      | ok us =>
          cases Lexeme.token? ⟨rule, text, start⟩ with
          | none => rfl
          | some t => rfl

/-! Scans over a newline. -/

/-- After a source without error the scan goes on as if it had begun below it. -/
theorem listFrom_append_newline (h : listFrom start cs = .ok ts) (rest : List Char) :
    listFrom start (cs ++ '\n' :: rest) =
      (listFrom ((start.advance cs).step '\n') rest).map (ts ++ ·) := by
  induction start, cs using scan_induction generalizing ts with
  | nil start =>
      rw [listFrom_nil] at h
      cases h
      rw [List.nil_append, listFrom_cons_of_isBlank (by decide), Position.advance_nil]
      cases listFrom (start.step '\n') rest with
      | error e => rfl
      | ok us => rfl
  | stuck start c cs hstuck =>
      rw [listFrom_of_stuck hstuck] at h
      cases h
  | takes start rule text tail htakes ih =>
      obtain ⟨us, hus, rfl⟩ := (listFrom_takes_eq_ok_iff htakes).mp h
      rw [List.append_assoc, listFrom_of_takes (htakes.append_newline rest), ih hus,
        ← Position.advance_append]
      cases listFrom ((start.advance (text ++ tail)).step '\n') rest with
      | error e => rfl
      | ok vs => exact congrArg Except.ok (List.append_assoc _ us vs).symm

/-- An error stays, unless it is for a string that what follows closes. -/
theorem listFrom_append_newline_of_error {rest : List Char} (h : listFrom start cs = .error e)
    (hquote : e.character = '"' → '"' ∉ rest) :
    listFrom start (cs ++ '\n' :: rest) = .error e := by
  induction start, cs using scan_induction with
  | nil start =>
      rw [listFrom_nil] at h
      cases h
  | stuck start c cs hstuck =>
      rw [listFrom_of_stuck hstuck] at h
      cases h
      have hstring : ¬ OpensString (c :: cs) rest := by
        rintro ⟨tail, hcons, _, hrest⟩
        exact hquote (List.cons.inj hcons).1 hrest
      have hfirst := first?_append_newline table (List.cons_ne_nil c cs) hstring
      rw [hstuck] at hfirst
      exact listFrom_of_stuck hfirst start
  | takes start rule text tail htakes ih =>
      rw [List.append_assoc, listFrom_takes_eq_error_iff (htakes.append_newline rest)]
      exact ih ((listFrom_takes_eq_error_iff htakes).mp h)

/-- A string that is closed below a source is no error any more: the scan goes on after it. -/
theorem listFrom_append_newline_ne_error {rest : List Char} (h : listFrom start cs = .error e)
    (hchar : e.character = '"') (hrest : '"' ∈ rest) :
    listFrom start (cs ++ '\n' :: rest) ≠ .error e := by
  induction start, cs using scan_induction with
  | nil start =>
      rw [listFrom_nil] at h
      cases h
  | stuck start c cs hstuck =>
      rw [listFrom_of_stuck hstuck] at h
      cases h
      change c = '"' at hchar
      subst hchar
      have hmem : '"' ∈ cs ++ '\n' :: rest := by simp [hrest]
      obtain ⟨body, more, hbody, hquote⟩ := List.eq_append_cons_of_mem hmem
      have hadmits : Kind.string.Admits (String.ofList ('"' :: body ++ ['"'])) :=
        ⟨body, String.toList_ofList, hquote⟩
      have htakes : (Rule.token .string).Takes (String.ofList ('"' :: body ++ ['"'])).toList more :=
        takes_of_admits hadmits trivial
      have htext : '"' :: cs ++ '\n' :: rest =
          (String.ofList ('"' :: body ++ ['"'])).toList ++ more := by
        rw [String.toList_ofList, List.cons_append, hbody]
        simp
      rw [htext]
      intro herror
      -- The scan takes the string where it failed before, and is past that place from there on.
      have hlater := le_position_of_error ((listFrom_takes_eq_error_iff htakes).mp herror)
      have hearlier := Position.lt_advance start htakes.ne_nil
      exact Position.lt_irrefl start (Position.lt_of_lt_of_le hearlier hlater)
  | takes start rule text tail htakes ih =>
      rw [List.append_assoc, Ne, listFrom_takes_eq_error_iff (htakes.append_newline rest)]
      exact ih ((listFrom_takes_eq_error_iff htakes).mp h)

/-- A source over another: the tokens of both, the lower ones as many lines further down as the
upper source has, or the error of the lower source as far down. An error in the upper source is the
error of both, unless it is for a string that the lower source closes. -/
theorem ofSource_append_newline (a b : String) :
    (∀ ts us, ofSource a = .ok ts → ofSource b = .ok us →
      ofSource (a ++ "\n" ++ b) = .ok (ts ++ us.map (·.lower (1 + a.toList.count '\n')))) ∧
    (∀ ts e, ofSource a = .ok ts → ofSource b = .error e →
      ofSource (a ++ "\n" ++ b) = .error (e.lower (1 + a.toList.count '\n'))) ∧
    (∀ e, ofSource a = .error e → e.character ≠ '"' → ofSource (a ++ "\n" ++ b) = .error e) ∧
    ∀ e, ofSource a = .error e → e.character = '"' →
      (ofSource (a ++ "\n" ++ b) = .error e ↔ '"' ∉ b.toList) := by
  have hsource : ofSource (a ++ "\n" ++ b) = listFrom .start (a.toList ++ '\n' :: b.toList) := by
    rw [ofSource, String.toList_append, String.toList_append, List.append_assoc]
    rfl
  rw [hsource]
  have hok : ∀ ts, ofSource a = .ok ts → listFrom .start (a.toList ++ '\n' :: b.toList) =
      (((ofSource b).map (List.map (·.lower (1 + a.toList.count '\n')))).mapError
        (·.lower (1 + a.toList.count '\n'))).map (ts ++ ·) := by
    intro ts hts
    rw [listFrom_append_newline hts, Position.advance_newline, listFrom_lower]
    rfl
  refine ⟨?_, ?_, ?_, ?_⟩
  · intro ts us hts hus
    rw [hok ts hts, hus]
    rfl
  · intro ts e hts he
    rw [hok ts hts, he]
    rfl
  · intro e he hchar
    exact listFrom_append_newline_of_error he fun hquote => absurd hquote hchar
  · intro e he hchar
    constructor
    · intro herror hrest
      exact listFrom_append_newline_ne_error he hchar hrest herror
    · intro hrest
      exact listFrom_append_newline_of_error he fun _ => hrest

/-- A comment ends with its line, a number is refused for what follows it on its own line, and a
string goes on to the line below. -/
theorem ofSource_append_newline_comment_and_quote :
    let x : Token := ⟨.identifier, "x", ⟨1, 1⟩⟩
    let z : Token := ⟨.string, "\"z\"", ⟨1, 1⟩⟩
    (ofSource "x # y" = .ok [x] ∧ ofSource "\"z\"" = .ok [z] ∧
        ofSource "x # y\n\"z\"" = .ok [x, z.lower 1]) ∧
      (ofSource " ?" = .error ⟨⟨1, 2⟩, '?'⟩ ∧ ofSource "x # y\n ?" = .error ⟨⟨2, 2⟩, '?'⟩) ∧
      (ofSource "x 1y" = .error ⟨⟨1, 3⟩, '1'⟩ ∧
        ofSource "x 1y\n\"z\"" = .error ⟨⟨1, 3⟩, '1'⟩) ∧
      ofSource "x \"y" = .error ⟨⟨1, 3⟩, '"'⟩ ∧
        ofSource "x \"y\n ?" = .error ⟨⟨1, 3⟩, '"'⟩ ∧
        ofSource "x \"y\n\"z\"" ≠ .error ⟨⟨1, 3⟩, '"'⟩ := by
  intro x z
  have hx : ofSource "x # y" = .ok [x] := by decide +kernel
  have hz : ofSource "\"z\"" = .ok [z] := by decide +kernel
  have hmark : ofSource " ?" = .error ⟨⟨1, 2⟩, '?'⟩ := by decide +kernel
  have hnumber : ofSource "x 1y" = .error ⟨⟨1, 3⟩, '1'⟩ := by decide +kernel
  have hquote : ofSource "x \"y" = .error ⟨⟨1, 3⟩, '"'⟩ := by decide +kernel
  obtain ⟨htokens, _, _, _⟩ := ofSource_append_newline "x # y" "\"z\""
  obtain ⟨_, hlower, _, _⟩ := ofSource_append_newline "x # y" " ?"
  obtain ⟨_, _, hupper, _⟩ := ofSource_append_newline "x 1y" "\"z\""
  obtain ⟨_, _, _, hopen⟩ := ofSource_append_newline "x \"y" " ?"
  obtain ⟨_, _, _, hclosed⟩ := ofSource_append_newline "x \"y" "\"z\""
  refine ⟨⟨hx, hz, htokens _ _ hx hz⟩, ⟨hmark, hlower _ _ hx hmark⟩,
    ⟨hnumber, hupper _ hnumber (by decide)⟩, hquote, (hopen _ hquote rfl).mpr (by decide), ?_⟩
  intro herror
  exact (hclosed _ hquote rfl).mp herror (by decide)

end Token

end ExprFront
