import ExprFront.Proofs.Lexing
import ExprFront.Proofs.Position

/-!
A scan, one rule at a time. At each place the text is at its end, or a rule takes the front of it
and the scan goes on after that, or no rule takes the next character and the scan has failed there.
-/

namespace ExprFront

/-- Where `text` and then `rest` follow, the text falls to this rule, which takes all of it. -/
structure Rule.Takes (rule : Rule) (text rest : List Char) : Prop where
  first : Rule.first? Rule.table (text ++ rest) = some rule
  munch : rule.munch (text ++ rest) = text

namespace Rule

variable {rule : Rule} {text rest : List Char}

theorem Takes.ne_nil (h : rule.Takes text rest) : text ≠ [] := by
  rw [← h.munch]
  exact munch_ne_nil_of_first? h.first

theorem Takes.admits {kind : Token.Kind} {text : String}
    (h : (token kind).Takes text.toList rest) : kind.Admits text := by
  have hadmits := admits_munch h.first
  rwa [h.munch, String.ofList_toList] at hadmits

theorem takes_of_admits {kind : Token.Kind} {text : String} (h : kind.Admits text)
    (hend : kind.EndsAt rest) : (token kind).Takes text.toList rest :=
  ⟨first?_append h hend, munch_append h hend⟩

theorem exists_takes {cs : List Char} (h : first? table cs = some rule) :
    ∃ text rest, cs = text ++ rest ∧ rule.Takes text rest := by
  obtain ⟨rest, hrest⟩ := munch_isPrefix rule cs
  refine ⟨rule.munch cs, rest, hrest.symm, ?_, ?_⟩
  · rw [hrest, h]
  · rw [hrest]

end Rule

namespace Token

open Rule

variable {rule : Rule} {text rest cs : List Char} {start : Position} {ts : List Token}
  {e : LexError}

theorem listFrom_of_stuck {c : Char} (h : first? table (c :: cs) = none) (start : Position) :
    listFrom start (c :: cs) = .error ⟨start, c⟩ := by
  rw [listFrom, Scan.resume_of_none h]
  rfl

theorem listFrom_of_takes (h : rule.Takes text rest) (start : Position) :
    listFrom start (text ++ rest) =
      (listFrom (start.advance text) rest).map
        ((Lexeme.token? ⟨rule, text, start⟩).toList ++ ·) := by
  rw [listFrom_of_first? h.first, h.munch, List.drop_left]

theorem listFrom_takes_eq_ok_iff (h : rule.Takes text rest) :
    listFrom start (text ++ rest) = .ok ts ↔
      ∃ us, listFrom (start.advance text) rest = .ok us ∧
        ts = (Lexeme.token? ⟨rule, text, start⟩).toList ++ us := by
  rw [listFrom_of_takes h]
  constructor
  · intro hts
    cases hrest : listFrom (start.advance text) rest with
    | error e =>
        rw [hrest] at hts
        cases hts
    | ok us =>
        rw [hrest] at hts
        cases hts
        exact ⟨us, rfl, rfl⟩
  · rintro ⟨us, hus, rfl⟩
    rw [hus]
    rfl

theorem listFrom_takes_eq_error_iff (h : rule.Takes text rest) :
    listFrom start (text ++ rest) = .error e ↔
      listFrom (start.advance text) rest = .error e := by
  rw [listFrom_of_takes h]
  constructor
  · intro he
    cases hrest : listFrom (start.advance text) rest with
    | error x =>
        rw [hrest] at he
        cases he
        rfl
    | ok us =>
        rw [hrest] at he
        cases he
  · intro he
    rw [he]
    rfl

/-- What holds where a scan ends and where it fails, and at a place whenever it holds after what a
rule takes there, holds everywhere. -/
theorem scan_induction {motive : Position → List Char → Prop}
    (nil : ∀ start, motive start [])
    (stuck : ∀ start c cs, first? table (c :: cs) = none → motive start (c :: cs))
    (takes : ∀ start (rule : Rule) text rest, rule.Takes text rest →
      motive (start.advance text) rest → motive start (text ++ rest))
    (start : Position) (cs : List Char) : motive start cs := by
  induction hn : cs.length using Nat.strongRecOn generalizing start cs with
  | ind length ih =>
      cases hfirst : first? table cs with
      | none =>
          cases cs with
          | nil => exact nil start
          | cons c cs => exact stuck start c cs hfirst
      | some rule =>
          obtain ⟨text, rest, rfl, htakes⟩ := exists_takes hfirst
          have hne := List.length_pos_iff.mpr htakes.ne_nil
          rw [List.length_append] at hn
          exact takes start rule text rest htakes (ih _ (by omega) _ _ rfl)

/-- An error is found no earlier than where the scan begins. -/
theorem le_position_of_error (h : listFrom start cs = .error e) : start ≤ e.position := by
  induction start, cs using scan_induction with
  | nil start =>
      rw [listFrom_nil] at h
      cases h
  | stuck start c cs hstuck =>
      rw [listFrom_of_stuck hstuck] at h
      cases h
      exact Position.le_refl start
  | takes start rule text rest htakes ih =>
      exact Position.le_trans (Position.le_advance start text)
        (ih ((listFrom_takes_eq_error_iff htakes).mp h))

/-- Each token is taken where it stands. -/
theorem exists_takes_of_mem {start : Position} {cs : List Char} {ts : List Token}
    (h : listFrom start cs = .ok ts) : ∀ t ∈ ts, ∃ before rest,
      cs = before ++ (t.text.toList ++ rest) ∧ t.position = start.advance before ∧
        (Rule.token t.kind).Takes t.text.toList rest := by
  induction start, cs using scan_induction generalizing ts with
  | nil start =>
      rw [listFrom_nil] at h
      cases h
      exact fun _ ht => absurd ht List.not_mem_nil
  | stuck start c cs hstuck =>
      rw [listFrom_of_stuck hstuck] at h
      cases h
  | takes start rule text rest htakes ih =>
      obtain ⟨us, hus, rfl⟩ := (listFrom_takes_eq_ok_iff htakes).mp h
      intro t ht
      rcases List.mem_append.mp ht with hfirst | hlater
      · cases rule with
        | token kind =>
            rw [Lexeme.token?, Option.toList_some, List.mem_singleton] at hfirst
            subst hfirst
            refine ⟨[], rest, ?_, rfl, ?_⟩
            · rw [List.nil_append, String.toList_ofList]
            · rw [String.toList_ofList]
              exact htakes
        | newline => exact absurd hfirst List.not_mem_nil
        | blank => exact absurd hfirst List.not_mem_nil
        | comment => exact absurd hfirst List.not_mem_nil
      · obtain ⟨before, after, rfl, hposition, htaken⟩ := ih hus t hlater
        refine ⟨text ++ before, after, (List.append_assoc _ _ _).symm, ?_, htaken⟩
        rw [hposition, Position.advance_append]

end Token

end ExprFront
