import ExprFront.Proofs.Scanning
import ExprFront.Proofs.Slices.Measure

/-!
A scan by offsets into its source. Round by round the rest of the source is cut off at the offset,
measured by the rules, and cut again where the first of them ends. No cut is refused, and the scan
comes to the same end as the scan over characters.
-/

namespace ExprFront

open Text Rule

/-- How far a scan has come: the bytes behind it, its place, and the tokens so far. -/
structure Progress where
  offset : Nat
  position : Position
  tokens : List Token
  deriving DecidableEq

namespace Progress

def start : Progress := ⟨0, .start, []⟩

/-- What a round comes to. -/
inductive Round where
  | goesOn (next : Progress)
  | ends (result : Except LexError (List Token))

/-- Where a scan stands after a text that a rule has taken. -/
def after (x : Progress) (rule : Rule) (text : List Char) (n : Nat) : Progress :=
  ⟨x.offset + n, x.position.advance text,
    x.tokens ++ (Lexeme.token? ⟨rule, text, x.position⟩).toList⟩

def round (source : String) (x : Progress) : Except BadSlice Round := do
  let rest ← sliceFrom source x.offset
  match rest.toList.head? with
  | none => return .ends (.ok x.tokens)
  | some c =>
      match ← measureFirst rest table with
      | none => return .ends (.error ⟨x.position, c⟩)
      | some (rule, n) =>
          let text ← sliceTo rest n
          return .goesOn (x.after rule text.toList n)

/-- Where the rounds over a source come to, one after the other. -/
inductive Reached (source : String) : Progress → Prop
  | start : Reached source start
  | next {x y : Progress} (hx : Reached source x) (hround : round source x = .ok (.goesOn y)) :
      Reached source y

/-- A scan stands between two parts of its source, whose tokens are those so far and those of the
second part. -/
structure Between (source : String) (x : Progress) (before rest : List Char) : Prop where
  append : source = String.ofList (before ++ rest)
  offset : x.offset = width before
  tokens : Token.ofSource source = (Token.listFrom x.position rest).map (x.tokens ++ ·)

variable {source : String} {x y : Progress} {before rest text : List Char} {rule : Rule}

theorem between_start (source : String) : Between source start [] source.toList := by
  refine ⟨(String.ofList_toList).symm, rfl, ?_⟩
  change Token.listFrom .start source.toList =
    (Token.listFrom .start source.toList).map (([] : List Token) ++ ·)
  cases Token.listFrom .start source.toList with
  | error e => rfl
  | ok ts => rfl

theorem Between.slice (h : Between source x before rest) :
    sliceFrom source x.offset = .ok (String.ofList rest) := by
  rw [h.append, h.offset]
  exact sliceFrom_width before rest

theorem Between.round_nil (h : Between source x before []) :
    round source x = .ok (.ends (.ok x.tokens)) := by
  rw [round, h.slice, ok_bind, String.toList_ofList]
  rfl

theorem Between.round_stuck {c : Char} {cs : List Char} (h : Between source x before (c :: cs))
    (hstuck : first? table (c :: cs) = none) :
    round source x = .ok (.ends (.error ⟨x.position, c⟩)) := by
  rw [round, h.slice, ok_bind, String.toList_ofList, measureFirst_ofList, hstuck]
  rfl

theorem Between.round_takes (h : Between source x before (text ++ rest))
    (htakes : rule.Takes text rest) :
    round source x = .ok (.goesOn (x.after rule text (width text))) := by
  obtain ⟨c, cs, hcons⟩ := List.exists_cons_of_ne_nil htakes.ne_nil
  have hhead : (text ++ rest).head? = some c := by rw [hcons]; rfl
  rw [round, h.slice, ok_bind, measureFirst_ofList, htakes.first]
  simp only [String.toList_ofList, hhead, Option.map_some, ok_bind, htakes.munch, sliceTo_width]
  rfl

/-- Between two parts of its source a scan goes on after what a rule takes of the second. -/
theorem Between.after (h : Between source x before (text ++ rest)) (htakes : rule.Takes text rest) :
    Between source (x.after rule text (width text)) (before ++ text) rest := by
  refine ⟨?_, ?_, ?_⟩
  · rw [List.append_assoc]
    exact h.append
  · rw [width_append, ← h.offset]
    rfl
  · rw [h.tokens, Token.listFrom_of_takes htakes, Progress.after]
    cases Token.listFrom (x.position.advance text) rest with
    | error e => rfl
    | ok ts => simp [Except.map]

/-- A round ends with what the source comes to, or goes on after some more characters. -/
theorem Between.round_cases (h : Between source x before rest) :
    (round source x = .ok (.ends (Token.ofSource source)) ∧
      (rest = [] ∨ ∃ e, Token.ofSource source = .error e)) ∨
    ∃ text after y, text ≠ [] ∧ rest = text ++ after ∧ round source x = .ok (.goesOn y) ∧
      Between source y (before ++ text) after := by
  have htokens := h.tokens
  cases hfirst : first? table rest with
  | none =>
      left
      cases rest with
      | nil =>
          rw [Token.listFrom_nil] at htokens
          change Token.ofSource source = .ok (x.tokens ++ []) at htokens
          rw [htokens, List.append_nil]
          exact ⟨h.round_nil, .inl rfl⟩
      | cons c cs =>
          rw [Token.listFrom_of_stuck hfirst] at htokens
          rw [htokens]
          exact ⟨h.round_stuck hfirst, .inr ⟨_, rfl⟩⟩
  | some rule =>
      right
      obtain ⟨text, after, rfl, htakes⟩ := exists_takes hfirst
      exact ⟨text, after, _, htakes.ne_nil, rfl, h.round_takes htakes, h.after htakes⟩

theorem Reached.between (h : Reached source x) : ∃ before rest, Between source x before rest := by
  induction h with
  | start => exact ⟨[], source.toList, between_start source⟩
  | next _ hround ih =>
      obtain ⟨before, rest, hx⟩ := ih
      rcases hx.round_cases with ⟨hends, _⟩ | ⟨text, after, y, _, _, hgoes, hy⟩
      · rw [hends] at hround
        cases hround
      · rw [hgoes] at hround
        cases hround
        exact ⟨_, after, hy⟩

/-- Every round leaves less of the source, so that one of them is the last. -/
theorem Between.exists_last (hx : Reached source x) (h : Between source x before rest) :
    ∃ last, Reached source last ∧ round source last = .ok (.ends (Token.ofSource source)) := by
  induction hn : rest.length using Nat.strongRecOn generalizing x before rest with
  | ind length ih =>
      rcases h.round_cases with ⟨hends, _⟩ | ⟨text, after, y, htext, rfl, hgoes, hy⟩
      · exact ⟨x, hx, hends⟩
      · have hpos := List.length_pos_iff.mpr htext
        rw [List.length_append] at hn
        exact ih after.length (by omega) (.next hx hgoes) hy rfl

/-- What a rule measures is the length in bytes of whole characters at the front of any text, those
that the rule takes. A scan by offsets is never refused a cut: it stands where whole characters end,
and each round moves it on by one of them or more. It ends with what the source comes to, and this is
at the end of the source or is an error. -/
theorem offsets_of_source (source : String) :
    (∀ (rule : Rule) (text : String), ∃ n?, rule.measure text = .ok n? ∧
      n?.getD 0 = width (rule.munch text.toList) ∧
      ∀ n ∈ n?, ∃ front rest, text = front ++ rest ∧ n = front.utf8ByteSize) ∧
    (∀ x, Reached source x → ∃ before rest, source = before ++ rest ∧
      x.offset = before.utf8ByteSize ∧
      ((∃ text after y, text ≠ "" ∧ rest = text ++ after ∧ round source x = .ok (.goesOn y) ∧
          y.offset = (before ++ text).utf8ByteSize) ∨
        round source x = .ok (.ends (Token.ofSource source)) ∧
          (x.offset = source.utf8ByteSize ∨ ∃ e, Token.ofSource source = .error e))) ∧
    ∃ last, Reached source last ∧ round source last = .ok (.ends (Token.ofSource source)) := by
  refine ⟨?_, ?_, (between_start source).exists_last .start⟩
  · intro rule text
    obtain ⟨n?, hmeasure, hwidth, _⟩ := exists_measure rule text.toList
    rw [String.ofList_toList] at hmeasure
    refine ⟨n?, hmeasure, hwidth, ?_⟩
    rintro n rfl
    obtain ⟨rest, hrest⟩ := rule.munch_isPrefix text.toList
    refine ⟨String.ofList (rule.munch text.toList), String.ofList rest, ?_, ?_⟩
    · rw [← String.ofList_append, hrest, String.ofList_toList]
    · rw [utf8ByteSize_ofList]
      exact hwidth
  · intro x hx
    obtain ⟨before, rest, h⟩ := hx.between
    have happend := h.append
    rw [String.ofList_append] at happend
    refine ⟨String.ofList before, String.ofList rest, happend, ?_, ?_⟩
    · rw [utf8ByteSize_ofList]
      exact h.offset
    · rcases h.round_cases with ⟨hends, hlast⟩ | ⟨text, after, y, htext, rfl, hgoes, hy⟩
      · refine .inr ⟨hends, hlast.imp_left ?_⟩
        rintro rfl
        rw [h.append, List.append_nil, utf8ByteSize_ofList]
        exact h.offset
      · refine .inl ⟨String.ofList text, String.ofList after, y, ?_, String.ofList_append, hgoes,
          ?_⟩
        · rwa [Ne, String.ofList_eq_empty_iff]
        · rw [← String.ofList_append, utf8ByteSize_ofList]
          exact hy.offset

/-- A string of three characters in four bytes, and a character of two bytes that no rule takes. -/
theorem offsets_of_source_umlauts :
    let source := "\"ö\"ü"
    let x : Progress := ⟨4, ⟨1, 4⟩, [⟨.string, "\"ö\"", ⟨1, 1⟩⟩]⟩
    Reached source x ∧ ∃ before rest, source = before ++ rest ∧ x.offset = before.utf8ByteSize ∧
      ((∃ text after y, text ≠ "" ∧ rest = text ++ after ∧ round source x = .ok (.goesOn y) ∧
          y.offset = (before ++ text).utf8ByteSize) ∨
        round source x = .ok (.ends (Token.ofSource source)) ∧
          (x.offset = source.utf8ByteSize ∨ ∃ e, Token.ofSource source = .error e)) := by
  intro source x
  have htakes : (token .string).Takes "\"ö\"".toList ['ü'] := ⟨by decide, by decide⟩
  have hsplit : source.toList = "\"ö\"".toList ++ ['ü'] := by decide
  have hstart := between_start source
  rw [hsplit] at hstart
  have hafter : start.after (token .string) "\"ö\"".toList (width "\"ö\"".toList) = x := by decide
  have hround : round source start = .ok (.goesOn x) := by
    rw [← hafter]
    exact hstart.round_takes htakes
  have hx : Reached source x := .next .start hround
  exact ⟨hx, (offsets_of_source source).2.1 x hx⟩

end Progress

end ExprFront
