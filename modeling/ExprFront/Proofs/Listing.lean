import ExprFront.Proofs.Quoted
import ExprFront.Proofs.Readability
import ExprFront.Token.Listing

/-!
Listings can be read back. A line tells where its kind, its quoted text and its place end, however
wide they are, and no text goes on over the end of a line.
-/

namespace ExprFront

open Text

theorem Text.toList_padRight (width : Nat) (text : String) :
    (padRight width text).toList = text.toList ++ List.replicate (width - text.length) ' ' := by
  rw [padRight, String.toList_append, String.toList_ofList]

theorem Text.oneLine_padRight (width : Nat) {text : String} (h : OneLine text) :
    OneLine (padRight width text) := by
  rw [OneLine, toList_padRight, List.mem_append, not_or]
  exact ⟨h, fun hpad => absurd (List.eq_of_mem_replicate hpad) (by decide)⟩

theorem Text.SelfDelimiting.padRight {α : Type} {write : α → String}
    (h : SelfDelimiting fun a => (write a).toList) (width : Nat) :
    SelfDelimiting fun a => (Text.padRight width (write a)).toList := by
  simp only [toList_padRight]
  exact h.append _

/-! Numbers. -/

theorem Text.toList_toString (n : Nat) : (toString n).toList = Nat.toDigits 10 n :=
  Nat.toList_repr

theorem Text.not_mem_toString {c : Char} (h : ¬ c.isDigit) (n : Nat) : c ∉ (toString n).toList := by
  rw [toList_toString]
  exact fun hmem => h (Nat.isDigit_of_mem_toDigits (by decide) (by decide) hmem)

theorem Text.toString_inj {m n : Nat} (h : (toString m).toList = (toString n).toList) : m = n := by
  rw [toList_toString, toList_toString] at h
  have hdigits := congrArg (Nat.ofDigitChars 10 · 0) h
  simpa only [Nat.ofDigitChars_toDigits (by decide : 1 < 10) (by decide : 10 ≤ 10)] using hdigits

theorem Text.toString_append_inj {mark : Char} (hmark : ¬ mark.isDigit) {m n : Nat}
    {rest more : List Char}
    (h : (toString m).toList ++ mark :: rest = (toString n).toList ++ mark :: more) :
    m = n ∧ rest = more := by
  obtain ⟨hnumber, hrest⟩ := cut_inj (not_mem_toString hmark m) (not_mem_toString hmark n) h
  exact ⟨toString_inj hnumber, hrest⟩

/-! Lines. -/

theorem Token.Kind.selfDelimiting_name : SelfDelimiting fun kind : Kind => kind.name.toList := by
  apply SelfDelimiting.of_isPrefix
  intro kind other h
  cases kind <;> cases other <;> revert h <;> decide

theorem Token.Kind.oneLine_name (kind : Kind) : OneLine kind.name := by
  cases kind <;> decide

theorem Text.oneLine_quoted (text : String) : OneLine (quoted text) := by
  rw [OneLine, quoted, String.toList_ofList]
  exact newline_not_mem_quote (by decide) text.toList

theorem Position.toList_render (p : Position) :
    p.render.toList = (toString p.line).toList ++ ':' :: (toString p.column).toList := by
  simp only [render, String.toList_append, List.append_assoc]
  rfl

theorem Position.oneLine_render (p : Position) : OneLine p.render := by
  have hnumber := not_mem_toString (by decide : ¬ '\n'.isDigit)
  rw [OneLine, toList_render, List.mem_append, List.mem_cons, not_or, not_or]
  exact ⟨hnumber _, by decide, hnumber _⟩

theorem Position.render_append_inj {p q : Position} {rest more : List Char}
    (h : p.render.toList ++ '\n' :: rest = q.render.toList ++ '\n' :: more) :
    p = q ∧ rest = more := by
  rw [toList_render, toList_render, List.append_assoc, List.append_assoc, List.cons_append,
    List.cons_append] at h
  obtain ⟨hline, hcolumns⟩ := toString_append_inj (by decide) h
  obtain ⟨hcolumn, hrest⟩ := toString_append_inj (by decide) hcolumns
  exact ⟨Position.ext hline hcolumn, hrest⟩

/-- What a line says of its token, without the newline at its end. -/
def Token.entry (t : Token) : String :=
  padRight 12 t.kind.name ++ " " ++ padRight 16 (quoted t.text) ++ " " ++ t.position.render

theorem Token.line_eq (t : Token) : t.line = t.entry ++ "\n" := rfl

theorem Token.oneLine_entry (t : Token) : OneLine t.entry := by
  simp only [entry, oneLine_append]
  exact ⟨⟨⟨⟨oneLine_padRight _ t.kind.oneLine_name, by decide⟩,
    oneLine_padRight _ (oneLine_quoted t.text)⟩, by decide⟩, t.position.oneLine_render⟩

theorem Token.selfDelimiting_line : SelfDelimiting fun t : Token => t.line.toList := by
  intro t u rest more h
  simp only [line, String.toList_append, List.append_assoc] at h
  obtain ⟨hkind, htext⟩ := Kind.selfDelimiting_name.padRight 12 h
  obtain ⟨htext, hposition⟩ := selfDelimiting_quoted.padRight 16 (List.append_cancel_left htext)
  obtain ⟨hposition, hrest⟩ := Position.render_append_inj (List.append_cancel_left hposition)
  obtain ⟨kind, text, position⟩ := t
  obtain rfl : kind = u.kind := hkind
  obtain rfl : text = u.text := htext
  obtain rfl : position = u.position := hposition
  exact ⟨rfl, hrest⟩

/-! Listings. -/

theorem Token.toList_listing (ts : List Token) :
    (listing ts).toList = ts.flatMap fun t => t.line.toList := by
  rw [listing, String.toList_join, List.flatMap_map]

theorem Token.listing_eq_iff {ts us : List Token} : listing ts = listing us ↔ ts = us := by
  constructor
  · intro h
    apply selfDelimiting_line.flatMap_injective
    · intro t
      rw [line_eq, String.toList_append]
      exact List.append_ne_nil_of_right_ne_nil _ (by decide)
    · rw [← toList_listing, ← toList_listing, h]
  · exact congrArg listing

/-- A listing has one line for each token, whatever characters the tokens have, and it tells the
tokens: two lists are listed alike only if they are the same in all kinds, texts and places. -/
theorem Token.listing_lossless (ts : List Token) :
    (∃ lines : List String, lines.length = ts.length ∧ (∀ line ∈ lines, OneLine line) ∧
      listing ts = String.join (lines.map (· ++ "\n"))) ∧
    ∀ us, listing ts = listing us ↔ ts = us := by
  refine ⟨⟨ts.map entry, List.length_map _, ?_, ?_⟩, fun us => listing_eq_iff⟩
  · intro line hline
    obtain ⟨t, _, rfl⟩ := List.mem_map.mp hline
    exact t.oneLine_entry
  · rw [listing, List.map_map]
    rfl

/-- A newline and a backslash before an `n` are not listed alike. -/
example :
    Token.listing [⟨.identifier, "a\nb", ⟨1, 2⟩⟩, ⟨.identifier, "a\\nb", ⟨1, 2⟩⟩] =
      "identifier   \"a\\nb\"           1:2\n" ++
      "identifier   \"a\\\\nb\"          1:2\n" := by
  decide +kernel

end ExprFront
