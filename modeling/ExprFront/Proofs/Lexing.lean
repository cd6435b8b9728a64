import ExprFront.Proofs.Lexical
import ExprFront.Scan

/-!
Scanning one token at a time: what the tokens from a place on are, by what stands there.
-/

namespace ExprFront

open Rule

namespace Scan

theorem resume_of_first? {rules : List Rule} {rule : Rule} {cs : List Char}
    (h : first? rules cs = some rule) (done : List Lexeme) (start : Position) :
    resume rules done start cs =
      resume rules (⟨rule, rule.munch cs, start⟩ :: done) (start.advance (rule.munch cs))
        (cs.drop (rule.munch cs).length) := by
  rw [resume]
  split
  · next other hother =>
      rw [h] at hother
      cases hother
      rfl
  · next hnone =>
      rw [h] at hnone
      cases hnone

theorem resume_of_none {rules : List Rule} {cs : List Char} (h : first? rules cs = none)
    (done : List Lexeme) (start : Position) :
    resume rules done start cs = ⟨done.reverse, start, cs⟩ := by
  rw [resume]
  split
  · next hsome =>
      rw [h] at hsome
      cases hsome
  · rfl

/-- Earlier lexemes have no say in what comes after them. -/
theorem resume_eq (rules : List Rule) (done : List Lexeme) (start : Position) (cs : List Char) :
    resume rules done start cs =
      { resume rules [] start cs with
        lexemes := done.reverse ++ (resume rules [] start cs).lexemes } := by
  induction hn : cs.length using Nat.strongRecOn generalizing done start cs with
  | ind length ih =>
      cases hfirst : first? rules cs with
      | none =>
          rw [resume_of_none hfirst, resume_of_none hfirst]
          simp
      | some rule =>
          have hprefix := (rule.munch_isPrefix cs).length_le
          have hne := List.length_pos_iff.mpr (munch_ne_nil_of_first? hfirst)
          have hlength : (cs.drop (rule.munch cs).length).length < length := by
            rw [List.length_drop]
            omega
          rw [resume_of_first? hfirst, resume_of_first? hfirst, ih _ hlength _ _ _ rfl,
            ih _ hlength [_] _ _ rfl]
          simp

theorem tokens_append (done : List Lexeme) (s : Scan) :
    { s with lexemes := done ++ s.lexemes }.tokens =
      s.tokens.map (done.filterMap Lexeme.token? ++ ·) := by
  simp only [tokens]
  cases s.rest with
  | nil => simp [Except.map]
  | cons c rest => rfl

end Scan

namespace Token

/-- The tokens of a text that begins at a place. -/
def listFrom (start : Position) (cs : List Char) : Except LexError (List Token) :=
  (Scan.resume table [] start cs).tokens

@[simp] theorem listFrom_nil (start : Position) : listFrom start [] = .ok [] := by
  have hnone : first? table [] = none := by simp [first?, munch_nil]
  rw [listFrom, Scan.resume_of_none hnone]
  rfl

theorem listFrom_of_first? {rule : Rule} {cs : List Char} (h : first? table cs = some rule)
    (start : Position) :
    listFrom start cs =
      (listFrom (start.advance (rule.munch cs)) (cs.drop (rule.munch cs).length)).map
        ((Lexeme.token? ⟨rule, rule.munch cs, start⟩).toList ++ ·) := by
  rw [listFrom, Scan.resume_of_first? h, Scan.resume_eq, Scan.tokens_append, listFrom]
  cases rule with
  | newline => rfl
  | blank => rfl
  | comment => rfl
  | token kind => rfl

theorem listFrom_append {kind : Kind} {text : String} {rest : List Char}
    (h : kind.Admits text) (hend : kind.EndsAt rest) (start : Position) :
    listFrom start (text.toList ++ rest) =
      (listFrom (start.advance text.toList) rest).map (⟨kind, text, start⟩ :: ·) := by
  rw [listFrom_of_first? (first?_append h hend), munch_append h hend, List.drop_left]
  simp [Lexeme.token?]

/-- A lexeme that stands for no token only moves the place. -/
theorem listFrom_of_gap {rule : Rule} {cs : List Char} (h : first? table cs = some rule)
    (hgap : ∀ kind, rule ≠ Rule.token kind) (start : Position) :
    listFrom start cs =
      listFrom (start.advance (rule.munch cs)) (cs.drop (rule.munch cs).length) := by
  rw [listFrom_of_first? h]
  have hnone : Lexeme.token? ⟨rule, rule.munch cs, start⟩ = none := by
    cases rule with
    | newline => rfl
    | blank => rfl
    | comment => rfl
    | token kind => exact absurd rfl (hgap kind)
  rw [hnone]
  cases listFrom (start.advance (rule.munch cs)) (cs.drop (rule.munch cs).length) with
  | error e => rfl
  | ok ts => rfl

theorem first?_of_gap {rule : Rule} {cs : List Char} (h : rule.munch cs ≠ [])
    (hgap : ∀ kind, rule ≠ Rule.token kind) : first? table cs = some rule := by
  rw [first?_table_eq_some_iff]
  exact ⟨h, fun hword => absurd hword (hgap .identifier)⟩

theorem listFrom_cons_of_isBlank {c : Char} (h : Text.isBlank c) (start : Position)
    (rest : List Char) : listFrom start (c :: rest) = listFrom (start.step c) rest := by
  have hnewline : ∀ kind, newline ≠ Rule.token kind := by simp
  have hblank : ∀ kind, blank ≠ Rule.token kind := by simp
  by_cases hc : c = '\n'
  · have hmunch : newline.munch (c :: rest) = [c] := by rw [hc]; rfl
    have hfirst : first? table (c :: rest) = some newline :=
      first?_of_gap (by simp [hmunch]) hnewline
    rw [listFrom_of_gap hfirst hnewline, hmunch]
    rfl
  · have hmunch : blank.munch (c :: rest) = c :: blank.munch rest := by
      rw [munch, munch, List.takeWhile_cons_of_pos]
      simp [h, hc]
    have hfirst : first? table (c :: rest) = some blank :=
      first?_of_gap (by simp [hmunch]) hblank
    rw [listFrom_of_gap hfirst hblank, hmunch, Position.advance_cons,
      List.length_cons, List.drop_succ_cons]
    by_cases hmore : blank.munch rest = []
    · rw [hmore]
      rfl
    · exact (listFrom_of_gap (first?_of_gap hmore hblank) hblank _).symm

/-- What a token is, wherever it stands. -/
def key (t : Token) : Kind × String :=
  (t.kind, t.text)

theorem key_of_is {t : Token} {kind : Kind} {text : String} (h : t.is kind text) :
    t.key = (kind, text) := by
  obtain ⟨hkind, htext⟩ := is_iff.mp h
  rw [key, hkind, htext]

theorem key_of_kind {t : Token} {kind : Kind} (h : t.kind = kind) : t.key = (kind, t.text) := by
  rw [key, h]

/-- A text has tokens of these kinds and texts, wherever it begins. -/
def Lexes (cs : List Char) (keys : List (Kind × String)) : Prop :=
  ∀ start, ∃ ts, listFrom start cs = .ok ts ∧ ts.map key = keys

theorem lexes_nil : Lexes [] [] := by
  intro start
  exact ⟨[], listFrom_nil start, rfl⟩

theorem Lexes.token {kind : Kind} {text : String} {rest : List Char}
    {keys : List (Kind × String)} (h : kind.Admits text) (hend : kind.EndsAt rest)
    (hrest : Lexes rest keys) : Lexes (text.toList ++ rest) ((kind, text) :: keys) := by
  intro start
  obtain ⟨ts, hts, hkeys⟩ := hrest (start.advance text.toList)
  refine ⟨⟨kind, text, start⟩ :: ts, ?_, ?_⟩
  · rw [listFrom_append h hend, hts]
    rfl
  · rw [List.map_cons, hkeys]
    rfl

theorem Lexes.blank {c : Char} {rest : List Char} {keys : List (Kind × String)}
    (h : Text.isBlank c) (hrest : Lexes rest keys) : Lexes (c :: rest) keys := by
  intro start
  obtain ⟨ts, hts, hkeys⟩ := hrest (start.step c)
  exact ⟨ts, by rw [listFrom_cons_of_isBlank h, hts], hkeys⟩

end Token

end ExprFront
