import ExprFront.Proofs.Delimited
import ExprFront.Proofs.Lines
import ExprFront.Proofs.Machine.SpelledStatements

/-!
Unique readability: a program is determined by its written form, at any depth and whether or not
that form is read back. Each statement is written on a line of its own, and a line is read back by a
reader that allows as many levels as the statement on it needs.
-/

namespace ExprFront

open Token

/-! Lines. -/

/-- A text that does not go on over the end of a line. -/
def Text.OneLine (text : String) : Prop :=
  '\n' ∉ text.toList

instance : DecidablePred Text.OneLine :=
  fun text => inferInstanceAs (Decidable ('\n' ∉ text.toList))

theorem Text.oneLine_append {a b : String} : OneLine (a ++ b) ↔ OneLine a ∧ OneLine b := by
  simp only [OneLine, String.toList_append, List.mem_append, not_or]

theorem Text.oneLine_moreSeparated {texts : List String} (h : ∀ text ∈ texts, OneLine text) :
    OneLine (moreSeparated texts) := by
  induction texts with
  | nil => decide
  | cons text texts ih =>
      obtain ⟨htext, htexts⟩ := List.forall_mem_cons.mp h
      simp only [moreSeparated_cons, oneLine_append]
      exact ⟨⟨by decide, htext⟩, ih htexts⟩

theorem Text.oneLine_commaSeparated {texts : List String} (h : ∀ text ∈ texts, OneLine text) :
    OneLine (commaSeparated texts) := by
  cases texts with
  | nil => decide
  | cons text texts =>
      obtain ⟨htext, htexts⟩ := List.forall_mem_cons.mp h
      rw [commaSeparated_cons, oneLine_append]
      exact ⟨htext, oneLine_moreSeparated htexts⟩

/-- Lines that have no newline in them can be told apart by where they end. -/
theorem line_inj {line other : List Char} (hline : '\n' ∉ line) (hother : '\n' ∉ other)
    {rest more : List Char} (h : line ++ '\n' :: rest = other ++ '\n' :: more) :
    line = other ∧ rest = more :=
  Text.cut_inj hline hother h

theorem newline_not_mem_of_isWord {cs : List Char} (h : IsWord cs) : '\n' ∉ cs := by
  cases cs with
  | nil => exact absurd h id
  | cons c cs =>
      intro hnewline
      rcases List.mem_cons.mp hnewline with rfl | hnewline
      · exact absurd h.1 (by decide)
      · exact absurd (h.2 _ hnewline) (by decide)

theorem newline_not_mem_of_isDigits {cs : List Char} (h : IsDigits cs) : '\n' ∉ cs :=
  fun hnewline => absurd (h.2 _ hnewline) (by decide)

/-- Of all tokens only strings go on over the end of a line. -/
theorem oneLine_of_admits {kind : Token.Kind} {text : String} (hkind : kind ≠ .string)
    (h : kind.Admits text) : Text.OneLine text := by
  cases kind with
  | keyword =>
      have hkeywords : ∀ text ∈ Token.keywords, Text.OneLine text := by decide
      exact hkeywords text h
  | identifier => exact newline_not_mem_of_isWord h.1
  | integer => exact newline_not_mem_of_isDigits h
  | float =>
      obtain ⟨whole, part, htext, hwhole, hpart⟩ := h
      rw [Text.OneLine, htext, List.mem_append, List.mem_cons, not_or, not_or]
      exact ⟨newline_not_mem_of_isDigits hwhole, by decide, newline_not_mem_of_isDigits hpart⟩
  | string => exact absurd rfl hkind
  | operator => exact Rule.operators_not_newline text h
  | punctuation =>
      obtain ⟨c, hc, htext⟩ := h
      rw [Text.OneLine, htext, List.mem_singleton]
      rintro rfl
      exact absurd hc (by decide)

mutual

theorem Expr.oneLine_render : ∀ {e : Expr}, e.Spelled → Text.OneLine e.render
  | .number text isFloat, h => oneLine_of_admits (by cases isFloat <;> decide) h
  | .var name, h => oneLine_of_admits (by decide) h
  | .unary op operand, h => by
      have hsymbol := oneLine_of_admits (by decide) op.symbol_admits
      simp only [Expr.render, Text.oneLine_append]
      exact ⟨⟨⟨by decide, hsymbol⟩, Expr.oneLine_render h⟩, by decide⟩
  | .binary op left right, h => by
      have hsymbol := oneLine_of_admits (by decide) op.symbol_admits
      simp only [Expr.render, Text.oneLine_append]
      exact ⟨⟨⟨⟨⟨⟨by decide, Expr.oneLine_render h.1⟩, by decide⟩, hsymbol⟩, by decide⟩,
        Expr.oneLine_render h.2⟩, by decide⟩
  | .call function args, h => by
      have hargs := Text.oneLine_commaSeparated (Expr.oneLine_renderList h.2)
      simp only [Expr.render, Text.oneLine_append]
      exact ⟨⟨⟨oneLine_of_admits (by decide) h.1, by decide⟩, hargs⟩, by decide⟩

theorem Expr.oneLine_renderList : ∀ {es : List Expr}, Expr.SpelledList es →
    ∀ text ∈ Expr.renderList es, Text.OneLine text
  | [], _ => List.forall_mem_nil _
  | _ :: _, h => List.forall_mem_cons.mpr ⟨Expr.oneLine_render h.1, Expr.oneLine_renderList h.2⟩

end

mutual

theorem Statement.oneLine_render : ∀ {s : Statement}, s.Spelled → Text.OneLine s.render
  | .assignment target value, h => by
      simp only [Statement.render, Text.oneLine_append]
      exact ⟨⟨oneLine_of_admits (by decide) h.1, by decide⟩, Expr.oneLine_render h.2⟩
  | .definition name params body, h => by
      have hname := oneLine_of_admits (by decide) h.1
      have hparams := Text.oneLine_commaSeparated fun param hparam =>
        oneLine_of_admits (by decide) (h.2.1 param hparam)
      simp only [Statement.render, Text.oneLine_append]
      exact ⟨⟨⟨⟨⟨by decide, hname⟩, by decide⟩, hparams⟩, by decide⟩,
        Statement.oneLine_renderBody h.2.2⟩
  | .returning value, h => by
      rw [Statement.render, Text.oneLine_append]
      exact ⟨by decide, Expr.oneLine_render h⟩
  | .expression value, h => Expr.oneLine_render h

theorem Statement.oneLine_renderBody : ∀ {ss : List Statement}, Statement.SpelledList ss →
    Text.OneLine (Statement.renderBody ss)
  | [], _ => by decide
  | s :: ss, h => by
      simp only [Statement.renderBody, Text.oneLine_append]
      exact ⟨⟨by decide, Statement.oneLine_render h.1⟩, Statement.oneLine_renderBody h.2⟩

end

/-! The tokens of a line. -/

namespace Machine

theorem exists_spells (keys : List Key) : ∃ ts, Spells ts keys :=
  ⟨keys.map fun k => ⟨k.1, k.2, .start⟩, by simp [Spells, Token.key, Function.comp_def]⟩

end Machine

theorem Expr.need_le_needList {e : Expr} : ∀ {es : List Expr}, e ∈ es → e.need ≤ Expr.needList es
  | next :: es, h => by
      rw [Expr.needList]
      rcases List.mem_cons.mp h with rfl | h
      · omega
      · have := Expr.need_le_needList h
        omega

/-- A statement is read back from its tokens alone where enough levels may be open. -/
theorem Machine.run_spelling {limit : Nat} {s : Statement} (hplaced : s.Placed)
    (hdistinct : s.Distinct) (hfits : ∀ e ∈ s.values, e.need ≤ limit) {ts : List Token}
    (hts : Spells ts s.spelling) : run limit ⟨[], .start⟩ ts = .ok ⟨[s]⟩ := by
  have hread : Guarded (∀ e ∈ s.values, e.need ≤ limit) (run limit ⟨[], .start⟩ (ts ++ []))
      (run limit ⟨[s], .start⟩ []) :=
    statement_taken hplaced hdistinct hts .nil fun _ => nofun
  rw [List.append_nil] at hread
  exact hread.1 hfits

theorem spellingMoreNames_inj {names others : List String} {keys more : List Key}
    (h : spellingMoreNames names ++ (.punctuation, ")") :: keys =
      spellingMoreNames others ++ (.punctuation, ")") :: more) : names = others ∧ keys = more := by
  induction names generalizing others with
  | nil =>
      cases others with
      | nil => exact ⟨rfl, List.tail_eq_of_cons_eq h⟩
      | cons other others => simp [spellingMoreNames] at h
  | cons name names ih =>
      cases others with
      | nil => simp [spellingMoreNames] at h
      | cons other others =>
          simp only [spellingMoreNames, List.cons_append, List.cons.injEq, Prod.mk.injEq,
            true_and] at h
          obtain ⟨rfl, hkeys⟩ := ih h.2
          exact ⟨by rw [h.1], hkeys⟩

theorem spellingNames_inj {names others : List String} {keys more : List Key}
    (h : spellingNames names ++ (.punctuation, ")") :: keys =
      spellingNames others ++ (.punctuation, ")") :: more) : names = others ∧ keys = more := by
  cases names with
  | nil =>
      cases others with
      | nil => exact ⟨rfl, List.tail_eq_of_cons_eq h⟩
      | cons other others => simp [spellingNames] at h
  | cons name names =>
      cases others with
      | nil => simp [spellingNames] at h
      | cons other others =>
          simp only [spellingNames, List.cons_append, List.cons.injEq, Prod.mk.injEq,
            true_and] at h
          obtain ⟨rfl, hkeys⟩ := spellingMoreNames_inj h.2
          exact ⟨by rw [h.1], hkeys⟩

namespace Statement

theorem eq_of_spelling_of_distinct {s t : Statement} (hs : s.Placed) (ht : t.Placed)
    (hs' : s.Distinct) (ht' : t.Distinct) (h : s.spelling = t.spelling) : s = t := by
  obtain ⟨ts, hts⟩ := Machine.exists_spells s.spelling
  have hfits : ∀ e ∈ s.values ++ t.values, e.need ≤ Expr.needList (s.values ++ t.values) :=
    fun e he => Expr.need_le_needList he
  obtain ⟨hs'', ht''⟩ := List.forall_mem_append.mp hfits
  have hleft := Machine.run_spelling hs hs' hs'' hts
  have hright := Machine.run_spelling ht ht' ht'' (h ▸ hts)
  rw [hleft] at hright
  cases hright
  rfl

theorem exists_definition {s : Statement} (h : s.spelling.head? = some (.keyword, "def")) :
    ∃ name params body, s = .definition name params body := by
  cases s with
  | assignment target value => simp [spelling] at h
  | definition name params body => exact ⟨name, params, body, rfl⟩
  | returning value => simp [spelling] at h
  | expression value =>
      cases value with
      | number text isFloat => cases isFloat <;> simp [spelling, Expr.spelling, Expr.numberKind] at h
      | _ => simp [spelling, Expr.spelling] at h

theorem distinct_of_head {s : Statement} (h : s.spelling.head? ≠ some (.keyword, "def")) :
    s.Distinct := by
  cases s with
  | definition name params body => exact absurd rfl h
  | _ => trivial

/-- The tokens of a statement determine it. Parameters that are repeated would not be read back, so
the body of a definition is read back without them. -/
theorem eq_of_spelling_eq {s t : Statement} (hs : s.Placed) (ht : t.Placed)
    (h : s.spelling = t.spelling) : s = t := by
  by_cases hhead : s.spelling.head? = some (.keyword, "def")
  · obtain ⟨name, params, body, rfl⟩ := exists_definition hhead
    obtain ⟨other, others, rest, rfl⟩ := exists_definition (h ▸ hhead)
    simp only [spelling, List.cons.injEq, Prod.mk.injEq, true_and] at h
    obtain ⟨rfl, hparams⟩ := h
    obtain ⟨rfl, hbody⟩ := spellingNames_inj hparams
    have hbare : definition name [] body = definition name [] rest :=
      eq_of_spelling_of_distinct hs ht .nil .nil (by simp [spelling, hbody])
    cases hbare
    rfl
  · exact eq_of_spelling_of_distinct hs ht (distinct_of_head hhead)
      (distinct_of_head (h ▸ hhead)) h

/-- What is written for a statement determines it. -/
theorem eq_of_render_eq {s t : Statement} (hs : s.Spelled) (ht : t.Spelled) (hs' : s.Placed)
    (ht' : t.Placed) (h : s.render = t.render) : s = t := by
  have hend : Ends [] := by
    intro kind
    cases kind <;> simp [Token.Kind.EndsAt]
  obtain ⟨ts, hts, hkeys⟩ := Statement.lexes_render hend lexes_nil hs .start
  obtain ⟨us, hus, hkeys'⟩ := Statement.lexes_render hend lexes_nil ht .start
  rw [h, hus] at hts
  cases hts
  rw [hkeys', List.append_nil, List.append_nil] at hkeys
  exact eq_of_spelling_eq hs' ht' hkeys.symm

end Statement

/-! Programs. -/

namespace Program

/-- A program whose texts are texts of tokens and whose statements stand where a source could have
them. Its definitions may repeat parameters. -/
structure Legible (p : Program) : Prop where
  spelled : Statement.SpelledList p.statements
  placed : ∀ s ∈ p.statements, s.Placed

theorem legible_cons {s : Statement} {ss : List Statement} (h : Legible ⟨s :: ss⟩) :
    s.Spelled ∧ s.Placed ∧ Legible ⟨ss⟩ := by
  obtain ⟨hs, hss⟩ := List.forall_mem_cons.mp h.placed
  exact ⟨h.spelled.1, hs, h.spelled.2, hss⟩

theorem toList_render_cons (s : Statement) (ss : List Statement) :
    (render ⟨s :: ss⟩).toList = s.render.toList ++ '\n' :: (render ⟨ss⟩).toList := by
  simp [render, String.join_cons]

theorem render_cons_ne_nil (s : Statement) (ss : List Statement) :
    render ⟨s :: ss⟩ ≠ render ⟨[]⟩ := by
  intro h
  have hlines := congrArg String.toList h
  rw [toList_render_cons] at hlines
  exact List.append_ne_nil_of_right_ne_nil _ (List.cons_ne_nil _ _) hlines

/-- Programs that are written alike are the same, however deep they are nested and whatever their
written form is read back as. -/
theorem render_injective {p q : Program} (hp : p.Legible) (hq : q.Legible)
    (h : p.render = q.render) : p = q := by
  obtain ⟨ss⟩ := p
  obtain ⟨ts⟩ := q
  induction ss generalizing ts with
  | nil =>
      cases ts with
      | nil => rfl
      | cons t ts => exact absurd h.symm (render_cons_ne_nil t ts)
  | cons s ss ih =>
      cases ts with
      | nil => exact absurd h (render_cons_ne_nil s ss)
      | cons t ts =>
          obtain ⟨hs, hs', hss⟩ := legible_cons hp
          obtain ⟨ht, ht', hts⟩ := legible_cons hq
          have hlines := congrArg String.toList h
          rw [toList_render_cons, toList_render_cons] at hlines
          obtain ⟨hline, hrest⟩ :=
            line_inj (Statement.oneLine_render hs) (Statement.oneLine_render ht) hlines
          have hfirst := Statement.eq_of_render_eq hs ht hs' ht' (String.toList_inj.mp hline)
          have hothers := ih hss ts hts (String.toList_inj.mp hrest)
          rw [hfirst, (Program.mk.injEq ss ts).mp hothers]

/-- A parameter is repeated, and a name is followed by a parenthesis on the next line: the written
form is refused, and yet it is that of one program only. -/
theorem render_injective_not_read_back :
    let body := [Statement.returning (.var "x")]
    let last := Statement.expression (.unary .minus (.var "x"))
    let p : Program := ⟨[.definition "f" ["x", "x"] body, last]⟩
    let q : Program := ⟨[.definition "f" (List.replicate 2 "x") body] ++ [last]⟩
    p.Legible ∧ q.Legible ∧ p.render = q.render ∧ (ofSource p.render).isOk = false ∧ p = q := by
  intro body last p q
  have hword : ∀ text ∈ ["f", "x"], Token.Kind.identifier.Admits text := by
    change ∀ text ∈ ["f", "x"], IsWord text.toList ∧ text ∉ Token.keywords
    decide
  have hp : p.Legible := {
    spelled := by
      simp [p, body, last, Statement.SpelledList, Statement.Spelled, Expr.Spelled, hword]
    placed := by simp [p, body, last, Statement.Placed, Statement.IsReturn] }
  have hrefused : (ofSource p.render).isOk = false := by decide +kernel
  exact ⟨hp, hp, rfl, hrefused, render_injective hp (q := q) hp rfl⟩

end Program

end ExprFront
