import ExprFront.Command
import ExprFront.Proofs.Grammar.Spelling

/-!
What the commands say about one input. They read and scan it alike, so they fail alike up to there;
beyond that the listing stands, and only the program is still in question.
-/

namespace ExprFront.Command

variable {read : Input → Except ReadError ByteArray} {input : Input} {source : String} {c : Command}

/-! Command lines. -/

/-- A flag that is not given does not have to be allowed. -/
theorem splitArgs?_erase {flag : String} {allowed args inputs flags : List String}
    (h : splitArgs? allowed args = some (inputs, flags)) (hflag : flag ∉ flags) :
    splitArgs? (allowed.erase flag) args = some (inputs, flags) := by
  induction args generalizing allowed inputs flags with
  | nil => exact h
  | cons arg args ih =>
      rw [splitArgs?] at h ⊢
      by_cases hdashes : arg = "--"
      · rw [if_pos hdashes] at h ⊢
        exact h
      · rw [if_neg hdashes] at h ⊢
        by_cases hgiven : isFlag arg
        · rw [if_pos hgiven] at h ⊢
          by_cases hmem : arg ∈ allowed
          · rw [if_pos hmem] at h
            obtain ⟨⟨found, others⟩, hsplit, heq⟩ := Option.map_eq_some_iff.mp h
            cases heq
            obtain ⟨hne, hflag⟩ := not_or.mp (mt List.mem_cons.mpr hflag)
            rw [if_pos ((List.mem_erase_of_ne (Ne.symm hne)).mpr hmem), List.erase_comm,
              ih hsplit hflag]
            rfl
          · rw [if_neg hmem] at h
            cases h
        · rw [if_neg hgiven] at h ⊢
          obtain ⟨⟨found, others⟩, hsplit, heq⟩ := Option.map_eq_some_iff.mp h
          cases heq
          rw [ih hsplit hflag]
          rfl

/-- Where the tokens are not asked for, they can be. -/
theorem ofArgs?_showTokens {args : List String} {debug : Bool}
    (h : ofArgs? ("parse" :: args) = some (parse input false debug)) :
    ofArgs? ("parse" :: "--show-tokens" :: args) = some (parse input true debug) := by
  rw [ofArgs?] at h
  split at h
  · next name flags hsplit =>
      simp only [Option.some.injEq, parse.injEq, decide_eq_false_iff_not] at h
      obtain ⟨rfl, hshow, rfl⟩ := h
      have hothers : splitArgs? ["--debug"] args = some ([name], flags) :=
        splitArgs?_erase hsplit hshow
      have hflag : isFlag "--show-tokens" = true := by decide
      simp [ofArgs?, splitArgs?, hflag, hothers]
  · cases h

/-! Inputs that are not scanned. -/

theorem outcome_of_decode_error {e : ReadError} (hc : c.input? = some input)
    (h : Input.decode (read input) = .error e) : c.outcome read = .failure e.message := by
  simp only [outcome, hc, h]

theorem outcome_of_decode (hc : c.input? = some input)
    (h : Input.decode (read input) = .ok source) : c.outcome read = c.onSource source := by
  simp only [outcome, hc, h]

theorem onSource_of_lexError {e : LexError} (hc : c.input? = some input)
    (h : Token.ofSource source = .error e) : c.onSource source = .failure e.message := by
  cases c with
  | version => cases hc
  | tokens input => simp only [onSource, h]
  | parse input showTokens debug => simp only [onSource, h]

/-! Inputs that are scanned. -/

theorem onSource_tokens {ts : List Token} (h : Token.ofSource source = .ok ts) :
    (tokens input).onSource source = .success (Token.listing ts) := by
  simp only [onSource, h]

/-- The tokens are shown before the program or its error. -/
theorem onSource_showTokens {ts : List Token} (h : Token.ofSource source = .ok ts) (debug : Bool) :
    (parse input true debug).onSource source =
      ((parse input false debug).onSource source).after
        ("=== TOKENS ===\n" ++ Token.listing ts ++ "=== AST ===\n") := by
  simp only [onSource, h, if_true]
  rfl

/-- A command scans and reads by itself, and comes to the program of the source. -/
theorem onSource_of_program {p : Program} (h : Program.ofSource source = .ok p) (debug : Bool) :
    (parse input false debug).onSource source = .success (written debug p) := by
  obtain ⟨ts, hts, hp⟩ := Program.ofSource_eq_ok_iff.mp h
  simp only [onSource, hts, parseTokens, hp]
  rfl

theorem onSource_of_error {e : Error} (h : Program.ofSource source = .error e) (debug : Bool) :
    (parse input false debug).onSource source = .failure e.message := by
  cases hts : Token.ofSource source with
  | error x =>
      rw [Program.ofSource, hts] at h
      cases h
      exact onSource_of_lexError rfl hts
  | ok ts =>
      rw [Program.ofSource_of_tokens hts] at h
      cases hp : Program.ofTokens ts with
      | ok p =>
          rw [hp] at h
          cases h
      | error x =>
          rw [hp] at h
          cases h
          simp only [onSource, hts, parseTokens, hp]
          rfl

/-- The tokens of an input can be listed, its program written, or both, by one flag more. An input
that is not read or not scanned is refused alike. Otherwise the tokens are listed, and stand before
all else where both are asked for; and what is written is the program of the source or, on the error
output alone, why it has none. -/
theorem outcomes_agree (read : Input → Except ReadError ByteArray) (input : Input) (debug : Bool) :
    let listed := (tokens input).outcome read
    let parsed := (parse input false debug).outcome read
    let shown := (parse input true debug).outcome read
    (∀ args, ofArgs? ("parse" :: args) = some (parse input false debug) →
      ofArgs? ("parse" :: "--show-tokens" :: args) = some (parse input true debug)) ∧
    (∀ e, Input.decode (read input) = .error e →
      listed = ⟨1, "", "Error: " ++ e.message ++ "\n"⟩ ∧ parsed = listed ∧ shown = listed) ∧
    ∀ source, Input.decode (read input) = .ok source →
      (∀ e, Token.ofSource source = .error e →
        listed = ⟨1, "", "Error: " ++ e.message ++ "\n"⟩ ∧ parsed = listed ∧ shown = listed) ∧
      (∀ ts, Token.ofSource source = .ok ts →
        listed = ⟨0, Token.listing ts, ""⟩ ∧
        shown.stdout = "=== TOKENS ===\n" ++ listed.stdout ++ "=== AST ===\n" ++ parsed.stdout ∧
        shown.exitCode = parsed.exitCode ∧ shown.stderr = parsed.stderr) ∧
      (∀ p, Program.ofSource source = .ok p → parsed =
        ⟨0, if debug then p.outline.render .indented ++ "\n" else p.render, ""⟩) ∧
      (∀ e, Program.ofSource source = .error e →
        parsed = ⟨1, "", "Error: " ++ e.message ++ "\n"⟩) := by
  intro listed parsed shown
  refine ⟨fun args => ofArgs?_showTokens, ?_, ?_⟩
  · intro e h
    have hlisted : listed = .failure e.message := outcome_of_decode_error rfl h
    have hparsed : parsed = .failure e.message := outcome_of_decode_error rfl h
    have hshown : shown = .failure e.message := outcome_of_decode_error rfl h
    exact ⟨hlisted, hparsed.trans hlisted.symm, hshown.trans hlisted.symm⟩
  · intro source h
    have hlisted : listed = (tokens input).onSource source := outcome_of_decode rfl h
    have hparsed : parsed = (parse input false debug).onSource source := outcome_of_decode rfl h
    have hshown : shown = (parse input true debug).onSource source := outcome_of_decode rfl h
    rw [hlisted, hparsed, hshown]
    refine ⟨?_, ?_, ?_, ?_⟩
    · intro e he
      have hfails {c : Command} (hc : c.input? = some input) :
          c.onSource source = .failure e.message := onSource_of_lexError hc he
      rw [hfails rfl, hfails rfl, hfails rfl]
      exact ⟨rfl, rfl, rfl⟩
    · intro ts hts
      rw [onSource_showTokens hts, onSource_tokens hts]
      exact ⟨rfl, by simp [Outcome.after, Outcome.success], rfl, rfl⟩
    · intro p hp
      exact onSource_of_program hp debug
    · intro e he
      exact onSource_of_error he debug

/-- In `x )` the parenthesis is a token that no expression begins with: the tokens are shown, and no
program after them. -/
theorem outcomes_agree_strayParenthesis :
    let read : Input → Except ReadError ByteArray := fun _ => .ok "x )".toUTF8
    let listed := (tokens .standardInput).outcome read
    let shown := (parse .standardInput true false).outcome read
    ofArgs? ["parse", "--show-tokens", "-"] = some (parse .standardInput true false) ∧
      Input.decode (read .standardInput) = .ok "x )" ∧
      listed.stdout = "identifier   \"x\"              1:1\npunctuation  \")\"              1:3\n" ∧
      shown.stdout = "=== TOKENS ===\n" ++ listed.stdout ++ "=== AST ===\n" ∧
      shown.exitCode = 1 ∧
      shown.stderr = "Error: Syntax error: expected expression, found punctuation `)` at line 1, " ++
        "column 3\n" := by
  intro read listed shown
  have hargs : ofArgs? ["parse", "-"] = some (parse .standardInput false false) := by decide +kernel
  have hdecode : Input.decode (read .standardInput) = .ok "x )" := rfl
  have hts : Token.ofSource "x )" =
      .ok [⟨.identifier, "x", ⟨1, 1⟩⟩, ⟨.punctuation, ")", ⟨1, 3⟩⟩] := by
    decide +kernel
  have hp : Program.ofSource "x )" =
      .error (.parse ⟨some ⟨.punctuation, ")", ⟨1, 3⟩⟩, .expression⟩) := by
    decide +kernel
  obtain ⟨hshow, _, hscanned⟩ := outcomes_agree read .standardInput false
  obtain ⟨_, hlists, _, hfails⟩ := hscanned "x )" hdecode
  obtain ⟨hlisted, hstdout, hexit, hstderr⟩ := hlists _ hts
  have hparsed := hfails _ hp
  rw [hparsed] at hstdout hexit hstderr
  exact ⟨hshow _ hargs, hdecode, (congrArg Outcome.stdout hlisted).trans (by decide +kernel),
    hstdout.trans String.append_empty, hexit, hstderr.trans (by decide +kernel)⟩

end ExprFront.Command
