import ExprFront.Proofs.Lexing

/-!
What stands between tokens, and with it all that a scan without error can meet: white space and
comments to the end, more of them before the next token, or a token.
-/

namespace ExprFront

/-- White space and comments. A comment goes on to a newline; a final one may go on to the end. -/
inductive Trivia (final : Prop) : List Char → Prop
  | nil : Trivia final []
  | blank : Text.isBlank c → Trivia final gap → Trivia final (c :: gap)
  | comment : '\n' ∉ body → Trivia final gap → Trivia final ('#' :: (body ++ '\n' :: gap))
  | last : final → '\n' ∉ body → Trivia final ('#' :: body)

theorem Trivia.append {final : Prop} {gap rest : List Char} (h : Trivia False gap)
    (hrest : Trivia final rest) : Trivia final (gap ++ rest) := by
  induction h with
  | nil => exact hrest
  | blank hblank _ ih => exact .blank hblank ih
  | comment hbody _ ih =>
      rw [List.cons_append, List.append_assoc, List.cons_append]
      exact .comment hbody ih
  | last hfinal _ => exact absurd hfinal id

namespace Token

theorem munch_comment {body rest : List Char} (hbody : '\n' ∉ body)
    (hrest : ∀ c ∈ rest.head?, c = '\n') :
    Rule.comment.munch ('#' :: (body ++ rest)) = '#' :: body := by
  have htake : (body ++ rest).takeWhile (· ≠ '\n') = body := by
    apply Rule.takeWhile_append_of_end
    · intro c hc
      rw [decide_eq_true_iff]
      rintro rfl
      exact hbody hc
    · intro c hc
      simp [hrest c hc]
  rw [Rule.munch, Rule.lineComment, htake]

theorem listFrom_comment {body rest : List Char} (hbody : '\n' ∉ body)
    (hrest : ∀ c ∈ rest.head?, c = '\n') (start : Position) :
    listFrom start ('#' :: (body ++ rest)) = listFrom (start.advance ('#' :: body)) rest := by
  have hmunch := munch_comment hbody hrest
  have hgap : ∀ kind, Rule.comment ≠ Rule.token kind := by simp
  have hfirst := first?_of_gap (by rw [hmunch]; exact List.cons_ne_nil _ _) hgap
  rw [listFrom_of_gap hfirst hgap, hmunch, ← List.cons_append, List.drop_left]

theorem listFrom_trivia {final : Prop} {gap rest : List Char} (h : Trivia final gap)
    (hrest : final → rest = []) (start : Position) :
    listFrom start (gap ++ rest) = listFrom (start.advance gap) rest := by
  induction h generalizing start with
  | nil => rfl
  | blank hblank _ ih =>
      rw [List.cons_append, listFrom_cons_of_isBlank hblank, ih]
      rfl
  | @comment body gap hbody _ ih =>
      have hnewline : Text.isBlank '\n' := by decide
      rw [List.cons_append, List.append_assoc, List.cons_append, listFrom_comment hbody (by simp),
        listFrom_cons_of_isBlank hnewline, ih, ← Position.advance_cons, ← Position.advance_append,
        List.cons_append]
  | last hfinal hbody =>
      rw [hrest hfinal, List.cons_append, listFrom_comment hbody (by simp)]

theorem cons_of_munch_blank {cs : List Char} (h : Rule.blank.munch cs ≠ []) :
    ∃ c rest, cs = c :: rest ∧ Text.isBlank c := by
  cases cs with
  | nil => exact absurd (Rule.munch_nil _) h
  | cons c rest =>
      rw [Rule.munch, List.takeWhile_cons] at h
      split at h
      · next hblank =>
          rw [Bool.and_eq_true] at hblank
          exact ⟨c, rest, rfl, hblank.1⟩
      · exact absurd rfl h

theorem cons_of_munch_newline {cs : List Char} (h : Rule.newline.munch cs ≠ []) :
    ∃ c rest, cs = c :: rest ∧ Text.isBlank c := by
  rw [Rule.munch] at h
  split at h
  · next hhead =>
      obtain ⟨rest, rfl⟩ := List.head?_eq_some_iff.mp hhead
      exact ⟨'\n', rest, rfl, by decide⟩
  · exact absurd rfl h

theorem cons_of_munch_comment {cs : List Char} (h : Rule.comment.munch cs ≠ []) :
    ∃ rest, cs = '#' :: rest := by
  rw [Rule.munch] at h
  unfold Rule.lineComment at h
  split at h
  · next rest => exact ⟨rest, rfl⟩
  · exact absurd rfl h

/-- How a text has its tokens: the gaps go by, and each token has a text of its kind. -/
inductive Scanned : Position → List Char → List Token → Prop
  | last : Trivia True cs → Scanned start cs []
  | gap : Trivia False gap → Scanned (start.advance gap) rest ts → Scanned start (gap ++ rest) ts
  | token {kind : Kind} {text : String} {start : Position} {rest : List Char} {ts : List Token} :
      kind.Admits text → Scanned (start.advance text.toList) rest ts →
      Scanned start (text.toList ++ rest) (⟨kind, text, start⟩ :: ts)

/-- Shorter texts that are scanned without error are scanned like this. -/
def ScansWithin (length : Nat) : Prop :=
  ∀ {start cs ts}, cs.length < length → listFrom start cs = .ok ts → Scanned start cs ts

variable {start : Position} {cs rest : List Char} {ts : List Token}

theorem scanned_blank {c : Char} (ih : ScansWithin (rest.length + 1)) (hblank : Text.isBlank c)
    (h : listFrom start (c :: rest) = .ok ts) : Scanned start (c :: rest) ts := by
  have hgap : Trivia False [c] := .blank hblank .nil
  rw [listFrom_cons_of_isBlank hblank] at h
  exact .gap hgap (ih (Nat.lt_succ_self _) h)

theorem scanned_comment (ih : ScansWithin (rest.length + 1))
    (h : listFrom start ('#' :: rest) = .ok ts) : Scanned start ('#' :: rest) ts := by
  by_cases hmem : '\n' ∈ rest
  · obtain ⟨body, rest, rfl, hbody⟩ := List.eq_append_cons_of_mem hmem
    have hgap : Trivia False ('#' :: (body ++ ['\n'])) := .comment hbody .nil
    have hcs : '#' :: (body ++ '\n' :: rest) = '#' :: (body ++ ['\n']) ++ rest := by simp
    rw [hcs, listFrom_trivia hgap False.elim] at h
    rw [hcs]
    exact .gap hgap (ih (by simp; omega) h)
  · have hlast : Trivia True ('#' :: rest) := .last trivial hmem
    rw [← List.append_nil ('#' :: rest), listFrom_trivia hlast (fun _ => rfl), listFrom_nil] at h
    cases h
    exact .last hlast

theorem scanned_token {kind : Kind} (ih : ScansWithin cs.length)
    (hfirst : Rule.first? Rule.table cs = some (Rule.token kind))
    (h : listFrom start cs = .ok ts) : Scanned start cs ts := by
  have hprefix := List.prefix_iff_eq_append.mp ((Rule.token kind).munch_isPrefix cs)
  have hadmits := Rule.admits_munch hfirst
  obtain ⟨text, htext⟩ : ∃ text : String, text.toList = (Rule.token kind).munch cs :=
    ⟨_, String.toList_ofList⟩
  rw [listFrom_of_first? hfirst, ← htext] at h
  rw [← htext] at hprefix hadmits
  rw [String.ofList_toList] at hadmits
  have hlength := congrArg List.length hprefix
  have hne := List.length_pos_iff.mpr (Rule.ne_nil_of_admits hadmits)
  rw [List.length_append] at hlength
  cases hrest : listFrom (start.advance text.toList) (cs.drop text.toList.length) with
  | error e =>
      rw [hrest] at h
      cases h
  | ok us =>
      rw [hrest] at h
      cases h
      rw [Lexeme.token?, String.ofList_toList, ← hprefix]
      exact .token hadmits (ih (by omega) hrest)

theorem scanned_of_listFrom (h : listFrom start cs = .ok ts) : Scanned start cs ts := by
  induction hn : cs.length using Nat.strongRecOn generalizing start cs ts with
  | ind length ih =>
      subst hn
      have ih : ScansWithin cs.length := fun hlength h => ih _ hlength h rfl
      cases hfirst : Rule.first? Rule.table cs with
      | none =>
          rw [listFrom, Scan.resume_of_none hfirst] at h
          cases cs with
          | nil =>
              cases h
              exact .last .nil
          | cons c cs => cases h
      | some rule =>
          have hmunch := Rule.munch_ne_nil_of_first? hfirst
          cases rule with
          | newline =>
              obtain ⟨c, rest, rfl, hblank⟩ := cons_of_munch_newline hmunch
              exact scanned_blank ih hblank h
          | blank =>
              obtain ⟨c, rest, rfl, hblank⟩ := cons_of_munch_blank hmunch
              exact scanned_blank ih hblank h
          | comment =>
              obtain ⟨rest, rfl⟩ := cons_of_munch_comment hmunch
              exact scanned_comment ih h
          | token kind => exact scanned_token ih hfirst h

theorem Scanned.admits (h : Scanned start cs ts) : ∀ t ∈ ts, t.kind.Admits t.text := by
  induction h with
  | last _ => exact fun _ ht => absurd ht List.not_mem_nil
  | gap _ _ ih => exact ih
  | token hadmits _ ih => exact List.forall_mem_cons.mpr ⟨hadmits, ih⟩

theorem admits_of_listFrom (h : listFrom start cs = .ok ts) : ∀ t ∈ ts, t.kind.Admits t.text :=
  (scanned_of_listFrom h).admits

end Token

end ExprFront
