import ExprFront.Proofs.Position
import ExprFront.Proofs.Spelling
import ExprFront.Proofs.Trivia

/-!
A source as its tokens and what stands between them. Scanning takes a source apart into the texts
of its tokens and gaps of white space and comments, and loses none of it; put together again with
any such gaps, the texts are the same tokens.
-/

namespace ExprFront

/-- A token to be put into a source, and the gap before it. -/
structure Piece where
  gap : List Char
  kind : Token.Kind
  text : String

namespace Piece

def key (piece : Piece) : Token.Kind × String :=
  (piece.kind, piece.text)

def layOut : List Piece → List Char
  | [] => []
  | piece :: pieces => piece.gap ++ (piece.text.toList ++ layOut pieces)

/-- The tokens of pieces, each at the place that the text before it leads to. -/
def placed (before : List Char) : List Piece → List Token
  | [] => []
  | piece :: pieces =>
      ⟨piece.kind, piece.text, Position.start.advance (before ++ piece.gap)⟩ ::
        placed (before ++ piece.gap ++ piece.text.toList) pieces

/-- Nothing but white space and comments stands before the tokens and after the last of them. -/
structure Gapped (pieces : List Piece) (last : List Char) : Prop where
  gaps : ∀ piece ∈ pieces, Trivia False piece.gap
  last : Trivia True last

/-- Gaps that tell tokens apart: no two tokens touch. -/
structure Spaced (pieces : List Piece) (last : List Char) : Prop extends Gapped pieces last where
  apart : ∀ piece ∈ pieces.tail, piece.gap ≠ []

theorem map_key_placed (before : List Char) (pieces : List Piece) :
    (placed before pieces).map Token.key = pieces.map key := by
  induction pieces generalizing before with
  | nil => rfl
  | cons piece pieces ih =>
      rw [placed, List.map_cons, List.map_cons, ih]
      rfl

end Piece

/-! Gaps. -/

theorem Trivia.ends {final : Prop} {gap rest : List Char} (h : Trivia final gap)
    (hgap : gap = [] → rest = []) : Ends (gap ++ rest) := by
  cases h with
  | nil =>
      rw [hgap rfl]
      intro kind
      cases kind <;> simp [Token.Kind.EndsAt]
  | @blank c gap hblank _ =>
      apply ends_cons
      refine ⟨fun hword => Rule.not_isBlank_of_isWordChar hword hblank, ?_, ?_⟩
      · rintro rfl
        exact absurd hblank (by decide)
      · rintro rfl
        exact absurd hblank (by decide)
  | comment _ _ => exact ends_cons _ (by decide)
  | last _ _ => exact ends_cons _ (by decide)

namespace Token

/-! Sources put together. -/

theorem ends_layOut {pieces : List Piece} {last : List Char}
    (hpieces : ∀ piece ∈ pieces, Trivia False piece.gap ∧ piece.gap ≠ [])
    (hlast : Trivia True last) : Ends (Piece.layOut pieces ++ last) := by
  cases pieces with
  | nil =>
      have hends : Ends (last ++ []) := hlast.ends fun _ => rfl
      rwa [List.append_nil] at hends
  | cons piece pieces =>
      obtain ⟨hgap, hne⟩ := hpieces piece List.mem_cons_self
      rw [Piece.layOut, List.append_assoc]
      exact hgap.ends fun hnil => absurd hnil hne

theorem listFrom_layOut {pieces : List Piece} {last : List Char}
    (hspaced : Piece.Spaced pieces last)
    (hadmits : ∀ piece ∈ pieces, piece.kind.Admits piece.text) (before : List Char) :
    listFrom (Position.start.advance before) (Piece.layOut pieces ++ last) =
      .ok (Piece.placed before pieces) := by
  induction pieces generalizing before with
  | nil =>
      rw [Piece.layOut, List.nil_append, ← List.append_nil last,
        listFrom_trivia hspaced.last (fun _ => rfl), listFrom_nil]
      rfl
  | cons piece pieces ih =>
      obtain ⟨hgap, hgaps⟩ := List.forall_mem_cons.mp hspaced.gaps
      obtain ⟨htext, htexts⟩ := List.forall_mem_cons.mp hadmits
      have happart : ∀ piece ∈ pieces, piece.gap ≠ [] := hspaced.apart
      have hspaced : Piece.Spaced pieces last :=
        ⟨⟨hgaps, hspaced.last⟩, fun piece hmem => happart piece (List.mem_of_mem_tail hmem)⟩
      have hends := ends_layOut (fun piece hmem => ⟨hgaps piece hmem, happart piece hmem⟩)
        hspaced.last
      rw [Piece.layOut, List.append_assoc, List.append_assoc, listFrom_trivia hgap False.elim,
        listFrom_append htext (hends _), ← Position.advance_append, ← Position.advance_append,
        ih hspaced htexts]
      rfl

/-- Texts of the lexical classes, put together with any gaps that keep them apart, are tokens with
just these texts, in order, where they stand. So are the texts of the tokens of any source. -/
theorem ofSource_layOut :
    (∀ pieces last, Piece.Spaced pieces last → (∀ piece ∈ pieces, piece.kind.Admits piece.text) →
      ofSource (String.ofList (Piece.layOut pieces ++ last)) = .ok (Piece.placed [] pieces)) ∧
    ∀ source ts, ofSource source = .ok ts → ∀ pieces last, Piece.Spaced pieces last →
      pieces.map Piece.key = ts.map key →
        ∃ us, ofSource (String.ofList (Piece.layOut pieces ++ last)) = .ok us ∧
          us.map key = ts.map key := by
  have hlayOut : ∀ pieces last, Piece.Spaced pieces last →
      (∀ piece ∈ pieces, piece.kind.Admits piece.text) →
      ofSource (String.ofList (Piece.layOut pieces ++ last)) = .ok (Piece.placed [] pieces) := by
    intro pieces last hspaced hadmits
    have hread := listFrom_layOut hspaced hadmits []
    rwa [← String.toList_ofList (l := Piece.layOut pieces ++ last)] at hread
  refine ⟨hlayOut, ?_⟩
  intro source ts hts pieces last hspaced hkeys
  have hadmits : ∀ piece ∈ pieces, piece.kind.Admits piece.text := by
    intro piece hpiece
    have hkey := List.mem_map_of_mem (f := Piece.key) hpiece
    rw [hkeys] at hkey
    obtain ⟨t, ht, hkey⟩ := List.mem_map.mp hkey
    obtain ⟨hkind, htext⟩ := Prod.mk.inj hkey
    rw [← hkind, ← htext]
    exact admits_of_listFrom hts t ht
  refine ⟨Piece.placed [] pieces, hlayOut pieces last hspaced hadmits, ?_⟩
  rw [Piece.map_key_placed, hkeys]

/-- An assignment over three lines, with a newline in a string and one after a comment. -/
def threeLines : List Piece :=
  [⟨[], .identifier, "x"⟩, ⟨[' '], .operator, "="⟩, ⟨[' '], .string, "\"a\nb\""⟩,
    ⟨['#', '\n'], .operator, "+"⟩, ⟨[' '], .integer, "1"⟩]

def threeLinesTokens : List Token :=
  [⟨.identifier, "x", ⟨1, 1⟩⟩, ⟨.operator, "=", ⟨1, 3⟩⟩, ⟨.string, "\"a\nb\"", ⟨1, 5⟩⟩,
    ⟨.operator, "+", ⟨3, 1⟩⟩, ⟨.integer, "1", ⟨3, 3⟩⟩]

theorem threeLines_spaced {last : List Char} (h : Trivia True last) :
    Piece.Spaced threeLines last := by
  have hspace : Trivia False [' '] := .blank (by decide) .nil
  have hcomment : Trivia False ['#', '\n'] := .comment List.not_mem_nil .nil
  refine ⟨⟨?_, h⟩, ?_⟩
  · simp [threeLines, hspace, hcomment, Trivia.nil]
  · simp [threeLines]

theorem threeLines_admits : ∀ piece ∈ threeLines, piece.kind.Admits piece.text := by
  intro piece hpiece
  simp only [threeLines, List.mem_cons, List.not_mem_nil, or_false] at hpiece
  rcases hpiece with rfl | rfl | rfl | rfl | rfl
  · exact ⟨by decide, by decide⟩
  · exact (by decide : "=" ∈ operators)
  · exact ⟨['a', '\n', 'b'], by decide, by decide⟩
  · exact (by decide : "+" ∈ operators)
  · exact (by decide : IsDigits "1".toList)

theorem ofSource_layOut_threeLines :
    ofSource (String.ofList (Piece.layOut threeLines ++ ['#'])) = .ok threeLinesTokens ∧
      ∃ us, ofSource (String.ofList (Piece.layOut threeLines ++ [' '])) = .ok us ∧
        us.map key = threeLinesTokens.map key := by
  have hcomment : Trivia True ['#'] := .last trivial List.not_mem_nil
  have hspace : Trivia True [' '] := .blank (by decide) .nil
  have hread := ofSource_layOut.1 threeLines ['#'] (threeLines_spaced hcomment) threeLines_admits
  have hplaced : Piece.placed [] threeLines = threeLinesTokens := by decide
  rw [hplaced] at hread
  refine ⟨hread, ?_⟩
  exact ofSource_layOut.2 _ _ hread threeLines [' '] (threeLines_spaced hspace) (by decide)

end Token

namespace Piece

/-! Sources taken apart. -/

theorem Gapped.exists_after {pieces : List Piece} {gap last : List Char} (h : Gapped pieces last)
    (hgap : Trivia False gap) (before : List Char) :
    ∃ pieces' last', Gapped pieces' last' ∧
      layOut pieces' ++ last' = gap ++ (layOut pieces ++ last) ∧
      placed before pieces' = placed (before ++ gap) pieces := by
  cases pieces with
  | nil => exact ⟨[], gap ++ last, ⟨h.gaps, hgap.append h.last⟩, rfl, rfl⟩
  | cons piece pieces =>
      obtain ⟨hpiece, hpieces⟩ := List.forall_mem_cons.mp h.gaps
      refine ⟨⟨gap ++ piece.gap, piece.kind, piece.text⟩ :: pieces, last,
        ⟨List.forall_mem_cons.mpr ⟨hgap.append hpiece, hpieces⟩, h.last⟩, ?_, ?_⟩
      · simp only [layOut, List.append_assoc]
      · simp only [placed, List.append_assoc]

theorem exists_of_scanned {start : Position} {cs : List Char} {ts : List Token}
    (h : Token.Scanned start cs ts) : ∀ before, start = Position.start.advance before →
      ∃ pieces last, Gapped pieces last ∧ cs = layOut pieces ++ last ∧
        ts = placed before pieces := by
  induction h with
  | @last cs _ hlast =>
      intro before _
      exact ⟨[], cs, ⟨by simp, hlast⟩, rfl, rfl⟩
  | gap hgap _ ih =>
      rintro before rfl
      obtain ⟨pieces, last, hgapped, rfl, rfl⟩ := ih _ (Position.advance_append _ _ _).symm
      obtain ⟨pieces', last', hgapped', hcs, hts⟩ := hgapped.exists_after hgap before
      exact ⟨pieces', last', hgapped', hcs.symm, hts.symm⟩
  | @token kind text _ _ _ _ _ ih =>
      rintro before rfl
      obtain ⟨pieces, last, hgapped, rfl, rfl⟩ := ih _ (Position.advance_append _ _ _).symm
      refine ⟨⟨[], kind, text⟩ :: pieces, last,
        ⟨List.forall_mem_cons.mpr ⟨.nil, hgapped.gaps⟩, hgapped.last⟩, ?_, ?_⟩
      · simp only [layOut, List.nil_append, List.append_assoc]
      · simp only [placed, List.append_nil]

/-! Places. -/

theorem placed_append (before : List Char) (front back : List Piece) :
    placed before (front ++ back) =
      placed before front ++ placed (before ++ layOut front) back := by
  induction front generalizing before with
  | nil => simp [placed, layOut]
  | cons piece front ih => simp [placed, layOut, ih]

theorem length_placed (before : List Char) (pieces : List Piece) :
    (placed before pieces).length = pieces.length := by
  induction pieces generalizing before with
  | nil => rfl
  | cons piece pieces ih => rw [placed, List.length_cons, List.length_cons, ih]

theorem le_of_mem_placed {before : List Char} {pieces : List Piece} :
    ∀ t ∈ placed before pieces, Position.start.advance before ≤ t.position := by
  induction pieces generalizing before with
  | nil => simp [placed]
  | cons piece pieces ih =>
      intro t ht
      rcases List.mem_cons.mp ht with rfl | ht
      · rw [Position.advance_append]
        exact Position.le_advance _ _
      · have hlater := ih t ht
        rw [List.append_assoc, Position.advance_append] at hlater
        exact Position.le_trans (Position.le_advance _ _) hlater

/-- Tokens stand in order and do not overlap. -/
theorem pairwise_placed {before : List Char} {pieces : List Piece}
    (htexts : ∀ t ∈ placed before pieces, t.text.toList ≠ []) :
    (placed before pieces).Pairwise fun t u =>
      t.position < u.position ∧ t.position.advance t.text.toList ≤ u.position := by
  induction pieces generalizing before with
  | nil => exact .nil
  | cons piece pieces ih =>
      rw [placed] at htexts ⊢
      obtain ⟨htext, htexts⟩ := List.forall_mem_cons.mp htexts
      refine .cons ?_ (ih htexts)
      intro u hu
      have hpast := le_of_mem_placed u hu
      rw [Position.advance_append] at hpast
      exact ⟨Position.lt_of_lt_of_le (Position.lt_advance _ htext) hpast, hpast⟩

end Piece

namespace Token

/-- A source with tokens is their texts, with nothing but white space and comments before, between
and after them. The text before a token gives its line and column, and tokens do not overlap. -/
theorem ofSource_lossless {source : String} {ts : List Token} (h : ofSource source = .ok ts) :
    ∃ pieces last, source.toList = Piece.layOut pieces ++ last ∧ Piece.Gapped pieces last ∧
      ts.map key = pieces.map Piece.key ∧
      (∀ front piece back, pieces = front ++ piece :: back →
        ts[front.length]? =
          some ⟨piece.kind, piece.text, .after (Piece.layOut front ++ piece.gap)⟩) ∧
      ts.Pairwise fun t u =>
        t.position < u.position ∧ t.position.advance t.text.toList ≤ u.position := by
  have htexts : ∀ t ∈ ts, t.text.toList ≠ [] := by
    intro t ht
    exact Rule.ne_nil_of_admits (admits_of_listFrom h t ht)
  obtain ⟨pieces, last, hgapped, hsource, rfl⟩ :=
    Piece.exists_of_scanned (scanned_of_listFrom h) [] rfl
  refine ⟨pieces, last, hsource, hgapped, Piece.map_key_placed [] pieces, ?_,
    Piece.pairwise_placed htexts⟩
  rintro front piece back rfl
  rw [Piece.placed_append, ← Piece.length_placed [] front,
    List.getElem?_append_right (Nat.le_refl _), Nat.sub_self, Piece.placed,
    List.getElem?_cons_zero, List.nil_append, Position.start_advance]

theorem ofSource_lossless_threeLines :
    ofSource "x = \"a\nb\"#\n+ 1#" = .ok threeLinesTokens ∧
      ∃ pieces last, "x = \"a\nb\"#\n+ 1#".toList = Piece.layOut pieces ++ last ∧
        Piece.Gapped pieces last ∧ threeLinesTokens.map key = pieces.map Piece.key ∧
        (∀ front piece back, pieces = front ++ piece :: back →
          threeLinesTokens[front.length]? =
            some ⟨piece.kind, piece.text, .after (Piece.layOut front ++ piece.gap)⟩) ∧
        threeLinesTokens.Pairwise fun t u =>
          t.position < u.position ∧ t.position.advance t.text.toList ≤ u.position := by
  have hcomment : Trivia True ['#'] := .last trivial List.not_mem_nil
  have hread := listFrom_layOut (threeLines_spaced hcomment) threeLines_admits []
  have hsource : "x = \"a\nb\"#\n+ 1#".toList = Piece.layOut threeLines ++ ['#'] := by decide
  have hplaced : Piece.placed [] threeLines = threeLinesTokens := by decide
  rw [hplaced, ← hsource] at hread
  exact ⟨hread, ofSource_lossless hread⟩

end Token

end ExprFront
