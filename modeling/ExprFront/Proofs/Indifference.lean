import ExprFront.Proofs.Machine.Relabelling
import ExprFront.Proofs.Numbers

/-!
Reading is indifferent to labels: to where tokens stand, to the texts of literals, and to which
names are used, as long as different names stay different. Two lists of tokens that differ in such
labels are one list with two sets of labels, in which each token is marked with its index.
-/

namespace ExprFront

/-- The second token may stand for the first where names are exchanged by `name`. A literal may have
any text, and every token may stand anywhere. -/
structure Token.Relabels (name : String → String) (t u : Token) : Prop where
  kind : u.kind = t.kind
  sign : t.kind = .keyword ∨ t.kind = .operator ∨ t.kind = .punctuation → u.text = t.text
  identifier : t.kind = .identifier → u.text = name t.text

/-- Each of the tokens, at its index, is exchanged for one that may stand for it, with the names
exchanged by one function that keeps different names different. -/
structure Token.RelabelsAll (name : String → String) (m : Nat → Token → Token) (ts : List Token) :
    Prop where
  name_injective : Function.Injective name
  relabels : ∀ (i : Nat) (t : Token), ts[i]? = some t → t.Relabels name (m i t)

namespace Token

theorem mapIdx_self (ts : List Token) : ts.mapIdx (fun _ t => t) = ts := by
  apply List.ext_getElem?
  intro i
  rw [List.getElem?_mapIdx, Option.map_id']

theorem relabelsAll_self (ts : List Token) : RelabelsAll id (fun _ t => t) ts :=
  ⟨Function.injective_id, fun _ _ _ => ⟨rfl, fun _ => rfl, fun _ => rfl⟩⟩

end Token

namespace Relabelling

/-! Marks. -/

/-- A text that tells an index by its length. -/
def mark (i : Nat) : String :=
  String.ofList (List.replicate i '0')

theorem length_mark (i : Nat) : (mark i).length = i := by
  rw [mark, String.length_ofList, List.length_replicate]

/-- A token with its index in the place of its labels, but for its name. -/
def marked (i : Nat) (t : Token) : Token where
  kind := t.kind
  text :=
    match t.kind with
    | .integer | .float | .string => mark i
    | .keyword | .identifier | .operator | .punctuation => t.text
  position := ⟨i, 0⟩

/-- Exchanges marks for the labels of the tokens that they tell. -/
def ofMarks (us : List Token) (name : String → String) (hname : Function.Injective name) :
    Relabelling where
  name := name
  literal text := us[text.length]?.elim "" Token.text
  place p := us[p.line]?.elim .start Token.position
  name_injective := hname

variable {name : String → String} {ts : List Token} {m : Nat → Token → Token}

theorem token_marked (hname : Function.Injective name) {us : List Token} {i : Nat} {t u : Token}
    (hu : us[i]? = some u) (h : t.Relabels name u) :
    (ofMarks us name hname).token (marked i t) = u := by
  have hplace : (ofMarks us name hname).place ⟨i, 0⟩ = u.position := by
    simp only [ofMarks, hu, Option.elim_some]
  have hliteral : (ofMarks us name hname).literal (mark i) = u.text := by
    simp only [ofMarks, length_mark, hu, Option.elim_some]
  have htext : (ofMarks us name hname).text (marked i t).text t.kind = u.text := by
    cases hkind : t.kind with
    | integer | float | string =>
        simp only [marked, hkind, text]
        exact hliteral
    | keyword | operator | punctuation =>
        simp only [marked, hkind, text]
        exact (h.sign (by simp [hkind])).symm
    | identifier =>
        simp only [marked, hkind, text]
        exact (h.identifier hkind).symm
  change Token.mk t.kind ((ofMarks us name hname).text (marked i t).text t.kind)
    ((ofMarks us name hname).place ⟨i, 0⟩) = u
  rw [htext, hplace, ← h.kind]

/-- The labels that tokens have after they are exchanged. -/
def after (h : Token.RelabelsAll name m ts) : Relabelling :=
  ofMarks (ts.mapIdx m) name h.name_injective

theorem after_token_marked (h : Token.RelabelsAll name m ts) {i : Nat} {t : Token}
    (ht : ts[i]? = some t) : (after h).token (marked i t) = m i t := by
  have hu : (ts.mapIdx m)[i]? = some (m i t) := by
    rw [List.getElem?_mapIdx, ht]
    rfl
  exact token_marked h.name_injective hu (h.relabels i t ht)

theorem map_after_token_marked (h : Token.RelabelsAll name m ts) :
    (ts.mapIdx marked).map (after h).token = ts.mapIdx m := by
  apply List.ext_getElem?
  intro i
  rw [List.getElem?_map, List.getElem?_mapIdx, List.getElem?_mapIdx]
  cases ht : ts[i]? with
  | none => rfl
  | some t => exact congrArg some (after_token_marked h ht)

end Relabelling

namespace Program

open Relabelling

variable {name : String → String} {ts : List Token} {m : Nat → Token → Token}

/-- An error at a token is at one of the tokens that are read. -/
theorem mem_of_ofTokens_error {x : ParseError} {t : Token} (h : ofTokens ts = .error x)
    (hfound : x.found = some t) : ∃ i : Nat, ts[i]? = some t := by
  rw [ofTokens, Machine.ofTokensWithin_eq_run] at h
  rcases Machine.run_error_found h hfound with hheld | ⟨i, hi, _⟩
  · cases hheld
  · exact ⟨i, hi⟩

theorem ofTokens_mapIdx (h : Token.RelabelsAll name m ts) :
    ofTokens (ts.mapIdx m) = (after h).outcome (after h).program (ofTokens (ts.mapIdx marked)) := by
  have hmap := (after h).ofTokensWithin_map maxNesting (ts.mapIdx marked)
  rwa [map_after_token_marked h] at hmap

theorem ofTokens_eq_outcome (ts : List Token) :
    ofTokens ts = (after (Token.relabelsAll_self ts)).outcome
      (after (Token.relabelsAll_self ts)).program (ofTokens (ts.mapIdx marked)) := by
  have hself := ofTokens_mapIdx (Token.relabelsAll_self ts)
  rwa [Token.mapIdx_self] at hself

theorem ofTokens_mapIdx_of_ok (h : Token.RelabelsAll name m ts) {p : Program}
    (hp : ofTokens ts = .ok p) :
    ofTokens (ts.mapIdx m) = .ok (p.relabel name (Token.numbers (ts.mapIdx m))) := by
  have hown := ofTokens_eq_outcome ts
  have hother := ofTokens_mapIdx h
  rw [hp] at hown
  cases hmarked : ofTokens (ts.mapIdx marked) with
  | error z =>
      rw [hmarked] at hown
      cases hown
  | ok q =>
      rw [hmarked] at hown hother
      cases hown
      have hnames : NamesBy name (after (Token.relabelsAll_self ts)) (after h) := fun _ => rfl
      have hq : ofTokens (ts.mapIdx m) = .ok ((after h).program q) := hother
      rw [← numbers_of_ofTokens hq, relabel_program hnames, hq]

/-- The place of an error depends on the marked tokens alone. -/
theorem ofTokens_error_at {x : ParseError} (hx : ofTokens ts = .error x) :
    (x.found = none ∧ ∀ name m, Token.RelabelsAll name m ts →
      ofTokens (ts.mapIdx m) = .error ⟨none, x.expected⟩) ∨
    ∃ (i : Nat) (t : Token), ts[i]? = some t ∧ x.found = some t ∧
      ∀ name m, Token.RelabelsAll name m ts →
        ofTokens (ts.mapIdx m) = .error ⟨some (m i t), x.expected⟩ := by
  have hown := ofTokens_eq_outcome ts
  rw [hx] at hown
  cases hmarked : ofTokens (ts.mapIdx marked) with
  | ok q =>
      rw [hmarked] at hown
      cases hown
  | error z =>
      obtain ⟨found, expected⟩ := z
      rw [hmarked] at hown
      cases hown
      cases found with
      | none =>
          refine .inl ⟨rfl, fun name m h => ?_⟩
          rw [ofTokens_mapIdx h, hmarked]
          rfl
      | some v =>
          -- The marked token that the error is at tells its index, whatever labels it is given.
          obtain ⟨i, hi⟩ := mem_of_ofTokens_error hmarked rfl
          rw [List.getElem?_mapIdx, Option.map_eq_some_iff] at hi
          obtain ⟨t, ht, rfl⟩ := hi
          refine .inr ⟨i, t, ht, ?_, fun name m h => ?_⟩
          · exact congrArg some (after_token_marked (Token.relabelsAll_self ts) ht)
          · rw [ofTokens_mapIdx h, hmarked]
            exact congrArg (fun u => Except.error (ParseError.mk (some u) expected))
              (after_token_marked h ht)

/-- Whether tokens are read as a program depends on their kinds, their keywords and signs, and on
which of their names are equal. The program has the names and the numbers of its tokens where other
tokens would have theirs. An error asks for the same whatever the labels are, and is found at the
end, or at the token of one index. -/
theorem ofTokens_relabelled (ts : List Token) :
    (∀ name m, Token.RelabelsAll name m ts →
      ((∃ q, ofTokens (ts.mapIdx m) = .ok q) ↔ ∃ p, ofTokens ts = .ok p)) ∧
    (∀ p, ofTokens ts = .ok p → p.numbers = Token.numbers ts ∧
      ∀ name m, Token.RelabelsAll name m ts →
        ofTokens (ts.mapIdx m) = .ok (p.relabel name (Token.numbers (ts.mapIdx m)))) ∧
    ∀ x, ofTokens ts = .error x →
      (x.found = none ∧ ∀ name m, Token.RelabelsAll name m ts →
        ofTokens (ts.mapIdx m) = .error ⟨none, x.expected⟩) ∨
      ∃ (i : Nat) (t : Token), ts[i]? = some t ∧ x.found = some t ∧
        ∀ name m, Token.RelabelsAll name m ts →
          ofTokens (ts.mapIdx m) = .error ⟨some (m i t), x.expected⟩ := by
  refine ⟨fun name m h => ?_, fun p hp => ⟨numbers_of_ofTokens hp, fun name m h => ?_⟩,
    fun x hx => ofTokens_error_at hx⟩
  · constructor
    · rintro ⟨q, hq⟩
      cases hts : ofTokens ts with
      | ok p => exact ⟨p, rfl⟩
      | error x =>
          rcases ofTokens_error_at hts with ⟨_, herror⟩ | ⟨i, t, _, _, herror⟩
          · rw [herror name m h] at hq
            cases hq
          · rw [herror name m h] at hq
            cases hq
    · rintro ⟨p, hp⟩
      exact ⟨_, ofTokens_mapIdx_of_ok h hp⟩
  · exact ofTokens_mapIdx_of_ok h hp

/-- Names made longer, other numbers, and one token on each line. A parameter that is repeated is
repeated under its other name. -/
theorem ofTokens_relabelled_longerNames :
    let name : String → String := fun x => x ++ "_"
    let m : Nat → Token → Token := fun i t => ⟨t.kind,
      if t.kind = .identifier then name t.text
      else if t.kind = .integer then (if i = 9 then "40" else "0") else t.text, ⟨i + 1, 1⟩⟩
    let token (kind : Token.Kind) (text : String) : Token := ⟨kind, text, .start⟩
    let header := [token .keyword "def", token .identifier "f", token .punctuation "(",
      token .identifier "x", token .punctuation ","]
    let read := header ++ [token .identifier "y", token .punctuation ")",
      token .punctuation ":", token .keyword "return", token .integer "2",
      token .operator "*", token .identifier "y", token .operator "-", token .integer "3"]
    let refused := header ++ [token .identifier "x", token .punctuation ")"]
    let value (y two three : String) : Expr :=
      .binary .subtract (.binary .multiply (.number two false) (.var y)) (.number three false)
    (ofTokens read = .ok ⟨[.definition "f" ["x", "y"] [.returning (value "y" "2" "3")]]⟩ ∧
      ofTokens (read.mapIdx m) =
        .ok ⟨[.definition "f_" ["x_", "y_"] [.returning (value "y_" "40" "0")]]⟩) ∧
    ofTokens refused = .error ⟨some (token .identifier "x"), .freshParameterName⟩ ∧
      ∃ i, refused[i]? = some (token .identifier "x") ∧ ofTokens (refused.mapIdx m) =
        .error ⟨some ⟨.identifier, "x_", ⟨i + 1, 1⟩⟩, .freshParameterName⟩ := by
  intro name m token header read refused value
  have hm (ts : List Token) : Token.RelabelsAll name m ts := by
    refine ⟨fun x y h => (String.append_left_inj "_").mp h, fun i t _ => ⟨rfl, ?_, ?_⟩⟩
    · rintro (h | h | h) <;> simp [m, h]
    · intro h
      simp [m, h]
  have hread : ofTokens read =
      .ok ⟨[.definition "f" ["x", "y"] [.returning (value "y" "2" "3")]]⟩ := by
    decide +kernel
  have hrefused : ofTokens refused =
      .error ⟨some (token .identifier "x"), .freshParameterName⟩ := by
    decide +kernel
  refine ⟨⟨hread, ?_⟩, hrefused, ?_⟩
  · rw [((ofTokens_relabelled read).2.1 _ hread).2 name m (hm read)]
    decide +kernel
  · rcases (ofTokens_relabelled refused).2.2 _ hrefused with
      ⟨hnone, _⟩ | ⟨i, t, hi, ht, herror⟩
    · cases hnone
    · cases ht
      exact ⟨i, hi, herror name m (hm refused)⟩

end Program

end ExprFront
