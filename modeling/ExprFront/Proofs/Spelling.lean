import ExprFront.Program.Printer
import ExprFront.Proofs.Lexing
import ExprFront.Proofs.WellFormed

/-!
The tokens of the written form. Scanning what is written for a program gives them back, however
deep the program is nested: no two pieces of the text run together.
-/

namespace ExprFront

open Token

/-! Spelling. -/

abbrev Key := Token.Kind × String

mutual

def Expr.spelling : Expr → List Key
  | .number text isFloat => [(Expr.numberKind isFloat, text)]
  | .var name => [(.identifier, name)]
  | .unary op operand =>
      (.punctuation, "(") :: (.operator, op.symbol) :: (operand.spelling ++ [(.punctuation, ")")])
  | .binary op left right =>
      (.punctuation, "(") ::
        (left.spelling ++ (.operator, op.symbol) :: (right.spelling ++ [(.punctuation, ")")]))
  | .call function args =>
      (.identifier, function) :: (.punctuation, "(") ::
        (Expr.spellingList args ++ [(.punctuation, ")")])

def Expr.spellingList : List Expr → List Key
  | [] => []
  | e :: es => e.spelling ++ Expr.spellingMore es

/-- Further items of a list, each after a comma. -/
def Expr.spellingMore : List Expr → List Key
  | [] => []
  | e :: es => (.punctuation, ",") :: (e.spelling ++ Expr.spellingMore es)

end

def spellingMoreNames : List String → List Key
  | [] => []
  | name :: names => (.punctuation, ",") :: (.identifier, name) :: spellingMoreNames names

def spellingNames : List String → List Key
  | [] => []
  | name :: names => (.identifier, name) :: spellingMoreNames names

mutual

def Statement.spelling : Statement → List Key
  | .assignment target value => (.identifier, target) :: (.operator, "=") :: value.spelling
  | .definition name params body =>
      (.keyword, "def") :: (.identifier, name) :: (.punctuation, "(") ::
        (spellingNames params ++
          (.punctuation, ")") :: (.punctuation, ":") :: Statement.spellingList body)
  | .returning value => (.keyword, "return") :: value.spelling
  | .expression value => value.spelling

def Statement.spellingList : List Statement → List Key
  | [] => []
  | s :: ss => s.spelling ++ Statement.spellingList ss

end

/-! Pieces that do not run together. -/

/-- No token goes on here. -/
def Ends (rest : List Char) : Prop :=
  ∀ kind : Token.Kind, kind.EndsAt rest

theorem ends_cons {c : Char} (rest : List Char)
    (h : ¬ Rule.isWordChar c ∧ c ≠ '.' ∧ c ≠ '=') : Ends (c :: rest) := by
  intro kind
  cases kind with
  | operator =>
      intro d hd
      cases hd
      exact h.2.2
  | string => trivial
  | punctuation => trivial
  | keyword | identifier | integer | float =>
      intro d hd
      cases hd
      exact ⟨h.1, h.2.1⟩

/-- What follows the first of a list of texts. -/
def Text.moreSeparated (texts : List String) : String :=
  String.join (texts.map (", " ++ ·))

theorem Text.moreSeparated_cons (text : String) (texts : List String) :
    Text.moreSeparated (text :: texts) = ", " ++ text ++ Text.moreSeparated texts := by
  rw [Text.moreSeparated, List.map_cons, String.join_cons]
  rfl

theorem Text.commaSeparated_cons (text : String) (texts : List String) :
    Text.commaSeparated (text :: texts) = text ++ Text.moreSeparated texts := by
  induction texts generalizing text with
  | nil => simp [Text.commaSeparated, Text.moreSeparated]
  | cons next texts ih =>
      simp only [Text.commaSeparated] at ih ⊢
      rw [String.intercalate_cons_cons, ih, Text.moreSeparated_cons]
      simp only [String.append_assoc]

theorem ends_moreSeparated {rest : List Char} (h : Ends rest) (texts : List String) :
    Ends ((Text.moreSeparated texts).toList ++ rest) := by
  cases texts with
  | nil => exact h
  | cons text texts =>
      rw [Text.moreSeparated_cons]
      simp only [String.toList_append, List.append_assoc]
      exact ends_cons _ (by decide)

theorem punctuation_admits :
    ∀ c ∈ Token.punctuation, Token.Kind.punctuation.Admits (String.singleton c) := by
  intro c hc
  exact ⟨c, hc, String.toList_singleton c⟩

theorem Token.Lexes.punctuation {rest : List Char} {keys : List Key} (h : Lexes rest keys)
    (c : Char) (hc : c ∈ Token.punctuation) :
    Lexes (c :: rest) ((.punctuation, String.singleton c) :: keys) := by
  have hlexes := Lexes.token (punctuation_admits c hc) trivial h
  rwa [String.toList_singleton] at hlexes

theorem Token.Lexes.space {rest : List Char} {keys : List Key} (h : Lexes rest keys) :
    Lexes (' ' :: rest) keys :=
  Lexes.blank (by decide) h

/-! Expressions. -/

theorem UnaryOp.symbol_admits (op : UnaryOp) : Token.Kind.operator.Admits op.symbol := by
  change op.symbol ∈ Token.operators
  cases op <;> decide

theorem BinaryOp.symbol_admits (op : BinaryOp) : Token.Kind.operator.Admits op.symbol := by
  change op.symbol ∈ Token.operators
  cases op <;> decide

theorem ne_equals_of_isWord {cs rest : List Char} (h : IsWord cs) :
    ∀ c ∈ (cs ++ rest).head?, c ≠ '=' := by
  cases cs with
  | nil => exact absurd h id
  | cons c cs =>
      rintro _ ⟨⟩ rfl
      exact absurd h.1 (by decide)

theorem ne_equals_of_isDigits {cs rest : List Char} (h : IsDigits cs) :
    ∀ c ∈ (cs ++ rest).head?, c ≠ '=' := by
  cases cs with
  | nil => exact absurd rfl h.1
  | cons c cs =>
      rintro _ ⟨⟩ rfl
      exact absurd (h.2 '=' List.mem_cons_self) (by decide)

theorem Expr.render_endsAt_operator (e : Expr) (h : e.Spelled) (rest : List Char) :
    Token.Kind.operator.EndsAt (e.render.toList ++ rest) := by
  cases e with
  | number text isFloat =>
      cases isFloat with
      | false => exact ne_equals_of_isDigits h
      | true =>
          obtain ⟨whole, part, htext, hwhole, _⟩ := h
          rw [Expr.render, htext, List.append_assoc]
          exact ne_equals_of_isDigits hwhole
  | var name => exact ne_equals_of_isWord h.1
  | unary op operand =>
      rw [Expr.render]
      simp [Token.Kind.EndsAt]
  | binary op left right =>
      rw [Expr.render]
      simp [Token.Kind.EndsAt]
  | call function args =>
      rw [Expr.render]
      simp only [String.toList_append, List.append_assoc]
      exact ne_equals_of_isWord h.1.1

mutual

theorem Expr.lexes_render {rest : List Char} {keys : List Key} (hends : Ends rest)
    (hrest : Lexes rest keys) : ∀ {e : Expr}, e.Spelled →
      Lexes (e.render.toList ++ rest) (e.spelling ++ keys)
  | .number text isFloat, h => .token h (hends _) hrest
  | .var name, h => .token h (hends _) hrest
  | .unary op operand, h => by
      have hclose := hrest.punctuation ')' (by decide)
      have hoperand : Lexes (operand.render.toList ++ ')' :: rest) _ :=
        Expr.lexes_render (ends_cons rest (by decide)) hclose h
      have hsign := Lexes.token op.symbol_admits (Expr.render_endsAt_operator operand h _) hoperand
      have hopen := hsign.punctuation '(' (by decide)
      simpa [Expr.render, Expr.spelling] using hopen
  | .binary op left right, h => by
      have hclose := hrest.punctuation ')' (by decide)
      have hright : Lexes (right.render.toList ++ ')' :: rest) _ :=
        Expr.lexes_render (ends_cons rest (by decide)) hclose h.2
      have hsign := Lexes.token op.symbol_admits (ends_cons _ (by decide) .operator) hright.space
      have hleft : Lexes (left.render.toList ++ ' ' :: _) _ :=
        Expr.lexes_render (ends_cons _ (by decide)) hsign.space h.1
      have hopen := hleft.punctuation '(' (by decide)
      simpa [Expr.render, Expr.spelling] using hopen
  | .call function args, h => by
      have hclose := hrest.punctuation ')' (by decide)
      have hargs := Expr.lexes_renderList (ends_cons rest (by decide)) hclose h.2
      have hopen := hargs.punctuation '(' (by decide)
      have hname := Lexes.token h.1 (ends_cons _ (by decide) .identifier) hopen
      simpa [Expr.render, Expr.spelling] using hname

theorem Expr.lexes_renderList {rest : List Char} {keys : List Key} (hends : Ends rest)
    (hrest : Lexes rest keys) : ∀ {es : List Expr}, Expr.SpelledList es →
      Lexes ((Text.commaSeparated (Expr.renderList es)).toList ++ rest)
        (Expr.spellingList es ++ keys)
  | [], _ => hrest
  | e :: es, h => by
      have hmore := Expr.lexes_moreSeparated hends hrest h.2
      have he := Expr.lexes_render (ends_moreSeparated hends (Expr.renderList es)) hmore h.1
      rw [Expr.renderList, Text.commaSeparated_cons]
      simpa [Expr.spellingList] using he

theorem Expr.lexes_moreSeparated {rest : List Char} {keys : List Key} (hends : Ends rest)
    (hrest : Lexes rest keys) : ∀ {es : List Expr}, Expr.SpelledList es →
      Lexes ((Text.moreSeparated (Expr.renderList es)).toList ++ rest)
        (Expr.spellingMore es ++ keys)
  | [], _ => hrest
  | e :: es, h => by
      have hmore := Expr.lexes_moreSeparated hends hrest h.2
      have he := Expr.lexes_render (ends_moreSeparated hends (Expr.renderList es)) hmore h.1
      have hcomma := he.space.punctuation ',' (by decide)
      rw [Expr.renderList, Text.moreSeparated_cons]
      simpa [Expr.spellingMore] using hcomma

end

/-! Statements. -/

theorem lexes_moreNames {names : List String} {rest : List Char} {keys : List Key}
    (hnames : ∀ name ∈ names, Token.Kind.identifier.Admits name) (hends : Ends rest)
    (hrest : Lexes rest keys) :
    Lexes ((Text.moreSeparated names).toList ++ rest) (spellingMoreNames names ++ keys) := by
  induction names with
  | nil => exact hrest
  | cons name names ih =>
      have hmore := ih fun name hmem => hnames name (List.mem_cons_of_mem _ hmem)
      have hname := Lexes.token (hnames name List.mem_cons_self)
        (ends_moreSeparated hends names .identifier) hmore
      have hcomma := hname.space.punctuation ',' (by decide)
      rw [Text.moreSeparated_cons]
      simpa [spellingMoreNames] using hcomma

theorem lexes_names {names : List String} {rest : List Char} {keys : List Key}
    (hnames : ∀ name ∈ names, Token.Kind.identifier.Admits name) (hends : Ends rest)
    (hrest : Lexes rest keys) :
    Lexes ((Text.commaSeparated names).toList ++ rest) (spellingNames names ++ keys) := by
  cases names with
  | nil => exact hrest
  | cons name names =>
      have hmore := lexes_moreNames (fun name hmem => hnames name (List.mem_cons_of_mem _ hmem))
        hends hrest
      have hname := Lexes.token (hnames name List.mem_cons_self)
        (ends_moreSeparated hends names .identifier) hmore
      rw [Text.commaSeparated_cons]
      simpa [spellingNames] using hname

theorem ends_renderBody {rest : List Char} (h : Ends rest) (body : List Statement) :
    Ends ((Statement.renderBody body).toList ++ rest) := by
  cases body with
  | nil => exact h
  | cons s body =>
      rw [Statement.renderBody]
      simp only [String.toList_append, List.append_assoc]
      exact ends_cons _ (by decide)

theorem admits_def : Token.Kind.keyword.Admits "def" := by
  change "def" ∈ Token.keywords
  decide

theorem admits_return : Token.Kind.keyword.Admits "return" := by
  change "return" ∈ Token.keywords
  decide

theorem admits_equals : Token.Kind.operator.Admits "=" := by
  change "=" ∈ Token.operators
  decide

mutual

theorem Statement.lexes_render {rest : List Char} {keys : List Key} (hends : Ends rest)
    (hrest : Lexes rest keys) : ∀ {s : Statement}, s.Spelled →
      Lexes (s.render.toList ++ rest) (s.spelling ++ keys)
  | .assignment target value, h => by
      have hvalue := Expr.lexes_render hends hrest h.2
      have hsign := Lexes.token admits_equals (ends_cons _ (by decide) .operator) hvalue.space
      have htarget := Lexes.token h.1 (ends_cons _ (by decide) .identifier) hsign.space
      simpa [Statement.render, Statement.spelling] using htarget
  | .definition name params body, h => by
      have hbody := Statement.lexes_renderBody hends hrest h.2.2
      have hcolon := hbody.punctuation ':' (by decide)
      have hclose := hcolon.punctuation ')' (by decide)
      have hparams := lexes_names h.2.1 (ends_cons _ (by decide)) hclose
      have hopen := hparams.punctuation '(' (by decide)
      have hname := Lexes.token h.1 (ends_cons _ (by decide) .identifier) hopen
      have hdef := Lexes.token admits_def (ends_cons _ (by decide) .keyword) hname.space
      simpa [Statement.render, Statement.spelling] using hdef
  | .returning value, h => by
      have hvalue := Expr.lexes_render hends hrest h
      have hreturn := Lexes.token admits_return (ends_cons _ (by decide) .keyword) hvalue.space
      simpa [Statement.render, Statement.spelling] using hreturn
  | .expression value, h => Expr.lexes_render hends hrest h

theorem Statement.lexes_renderBody {rest : List Char} {keys : List Key} (hends : Ends rest)
    (hrest : Lexes rest keys) : ∀ {body : List Statement}, Statement.SpelledList body →
      Lexes ((Statement.renderBody body).toList ++ rest) (Statement.spellingList body ++ keys)
  | [], _ => hrest
  | s :: body, h => by
      have hbody := Statement.lexes_renderBody hends hrest h.2
      have hs := Statement.lexes_render (ends_renderBody hends body) hbody h.1
      simpa [Statement.renderBody, Statement.spellingList] using hs.space

end

/-- The written form of a program is scanned as the tokens it was written with. -/
theorem Program.lexes_render {p : Program} (h : Statement.SpelledList p.statements) :
    Lexes p.render.toList (Statement.spellingList p.statements) := by
  obtain ⟨statements⟩ := p
  rw [Program.render]
  induction statements with
  | nil => exact lexes_nil
  | cons s statements ih =>
      have hrest : Lexes ('\n' :: _) _ := Lexes.blank (by decide) (ih h.2)
      have hs := Statement.lexes_render (ends_cons _ (by decide)) hrest h.1
      simpa [Statement.spellingList] using hs

end ExprFront
