import ExprFront.Proofs.Endings

/-!
Sources that go on. More characters at the end of a source can change the token that reaches up to
that end, and no other.
-/

namespace ExprFront

theorem Position.eq_of_advance_eq {start : Position} {a b : List Char} (h : a <+: b)
    (heq : start.advance a = start.advance b) : a = b := by
  obtain ⟨more, rfl⟩ := h
  cases more with
  | nil => exact (List.append_nil a).symm
  | cons c more =>
      have hlt := lt_advance (start.advance a) (List.cons_ne_nil c more)
      rw [← advance_append, ← heq] at hlt
      exact absurd hlt (lt_irrefl _)

namespace Token

open Rule

variable {start : Position} {cs more : List Char} {ts vs : List Token} {t : Token}

/-- The text of a token comes to its end before a source does. -/
def EndsBefore (t : Token) (cs : List Char) : Prop :=
  ∃ before rest, cs = before ++ (t.text.toList ++ rest) ∧ t.position = .after before ∧ rest ≠ []

/-- The text of a token reaches up to the end of a text. -/
def Reaches (t : Token) (start : Position) (cs : List Char) : Prop :=
  ∃ before, cs = before ++ t.text.toList ∧ t.position = start.advance before

theorem Reaches.not_endsBefore (h : t.Reaches .start cs) : ¬ t.EndsBefore cs := by
  rintro ⟨before, rest, hcs, hposition, hrest⟩
  obtain ⟨other, hother, hplace⟩ := h
  rw [hposition, ← Position.start_advance] at hplace
  -- A token has one place, so the text before it is the same both times.
  have hbefore : before = other := by
    rcases List.prefix_or_prefix_of_prefix ⟨_, hcs.symm⟩ ⟨_, hother.symm⟩ with hle | hle
    · exact Position.eq_of_advance_eq hle hplace
    · exact (Position.eq_of_advance_eq hle hplace.symm).symm
  rw [hother, hbefore, ← List.append_assoc] at hcs
  exact hrest (List.append_right_eq_self.mp hcs.symm)

/-- All tokens of a text are those of a longer one, but for a last one that reaches up to the end
of the text. -/
theorem exists_kept (h : listFrom start cs = .ok ts)
    (hmore : listFrom start (cs ++ more) = .ok vs) :
    ∃ (front : List Token) (last : Option Token), ts = front ++ last.toList ∧ front <+: vs ∧
      ∀ t ∈ last, t.Reaches start cs := by
  induction start, cs using scan_induction generalizing ts vs with
  | nil start =>
      rw [listFrom_nil] at h
      cases h
      exact ⟨[], none, rfl, List.nil_prefix, nofun⟩
  | stuck start c cs hstuck =>
      rw [listFrom_of_stuck hstuck] at h
      cases h
  | takes start rule text rest htakes ih =>
      obtain ⟨us, hus, rfl⟩ := (listFrom_takes_eq_ok_iff htakes).mp h
      cases rest with
      | nil =>
          rw [listFrom_nil] at hus
          cases hus
          refine ⟨[], Lexeme.token? ⟨rule, text, start⟩, by simp, List.nil_prefix, ?_⟩
          intro t ht
          cases rule with
          | token kind =>
              cases ht
              exact ⟨[], by simp, rfl⟩
          | newline => cases ht
          | blank => cases ht
          | comment => cases ht
      | cons c rest =>
          have hpoint : c ≠ '.' := by
            rintro rfl
            rw [listFrom_of_stuck (first?_eq_none_of_ofChar? (by decide) rest)] at hus
            cases hus
          rw [List.append_assoc, List.cons_append] at hmore
          obtain ⟨ws, hws, rfl⟩ := (listFrom_takes_eq_ok_iff (htakes.append hpoint more)).mp hmore
          obtain ⟨front, last, rfl, hfront, hlast⟩ := ih hus hws
          refine ⟨_, last, (List.append_assoc _ _ _).symm,
            (List.prefix_append_right_inj _).mpr hfront, ?_⟩
          intro t ht
          obtain ⟨before, hbefore, hposition⟩ := hlast t ht
          refine ⟨text ++ before, ?_, ?_⟩
          · rw [hbefore, List.append_assoc]
          · rw [hposition, Position.advance_append]

/-- Of two sources without error, one the beginning of the other, the longer has every token of the
shorter that ends before the shorter does, at its index and in its place. So it has all of them but
the last. -/
theorem ofSource_append_stable {p q : String} (h : ofSource p = .ok ts)
    (hmore : ofSource (p ++ q) = .ok vs) :
    (∀ (i : Nat) (t : Token), ts[i]? = some t → t.EndsBefore p.toList → vs[i]? = some t) ∧
      ts.dropLast <+: vs := by
  rw [ofSource, String.toList_append] at hmore
  obtain ⟨front, last, rfl, hfront, hlast⟩ := exists_kept h hmore
  obtain ⟨tail, rfl⟩ := hfront
  constructor
  · intro i t hi hends
    by_cases hlt : i < front.length
    · rw [List.getElem?_append_left hlt] at hi ⊢
      exact hi
    · rw [List.getElem?_append_right (Nat.le_of_not_lt hlt)] at hi
      have hmem := List.mem_of_getElem? hi
      rw [Option.mem_toList] at hmem
      exact absurd hends (hlast t hmem).not_endsBefore
  · cases last with
    | none =>
        rw [Option.toList_none, List.append_nil]
        exact (List.dropLast_prefix front).trans (List.prefix_append front tail)
    | some t =>
        rw [Option.toList_some, List.dropLast_concat]
        exact List.prefix_append front tail

/-- A number goes on, and the name before it stays. -/
theorem ofSource_append_stable_longerNumber :
    let x : Token := ⟨.identifier, "x", ⟨1, 1⟩⟩
    let number : Token := ⟨.integer, "12", ⟨1, 3⟩⟩
    let longer : Token := ⟨.float, "123.5", ⟨1, 3⟩⟩
    ofSource "x 12" = .ok [x, number] ∧ ofSource ("x 12" ++ "3.5") = .ok [x, longer] ∧
      [x, number][0]? = some x ∧ x.EndsBefore "x 12".toList ∧ [x, longer][0]? = some x ∧
      [x, number].dropLast <+: [x, longer] := by
  intro x number longer
  have hp : ofSource "x 12" = .ok [x, number] := by decide +kernel
  have hpq : ofSource ("x 12" ++ "3.5") = .ok [x, longer] := by decide +kernel
  have hends : x.EndsBefore "x 12".toList := ⟨[], " 12".toList, by decide, by decide, by decide⟩
  obtain ⟨hkept, hlast⟩ := ofSource_append_stable hp hpq
  exact ⟨hp, hpq, rfl, hends, hkept 0 x rfl hends, hlast⟩

end Token

end ExprFront
