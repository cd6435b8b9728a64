import ExprFront.Proofs.Grammar.Spelling
import ExprFront.Proofs.Relabelling

/-!
The numbers of a program, in the order of its text. They are those of the tokens that the program is
read from, so that other texts can be put in their places one by one.
-/

namespace ExprFront

open Token

/-- The text of a number, if it is one. -/
def keyNumber? : Key → Option String
  | (.integer, text) | (.float, text) => some text
  | _ => none

/-- The texts of the numbers among some tokens. -/
def Token.numbers (ts : List Token) : List String :=
  ts.filterMap fun t => keyNumber? t.key

mutual

def Expr.numbers : Expr → List String
  | .number text _ => [text]
  | .var _ => []
  | .unary _ operand => operand.numbers
  | .binary _ left right => left.numbers ++ right.numbers
  | .call _ args => Expr.numbersList args

def Expr.numbersList : List Expr → List String
  | [] => []
  | e :: es => e.numbers ++ Expr.numbersList es

end

mutual

def Statement.numbers : Statement → List String
  | .assignment _ value => value.numbers
  | .definition _ _ body => Statement.numbersList body
  | .returning value => value.numbers
  | .expression value => value.numbers

def Statement.numbersList : List Statement → List String
  | [] => []
  | s :: ss => s.numbers ++ Statement.numbersList ss

end

def Program.numbers (p : Program) : List String :=
  Statement.numbersList p.statements

/-! Exchanged in place. -/

mutual

/-- The expression with each name `x` replaced by `name x`, and with its numbers, from left to
right, replaced by the first of the texts. -/
def Expr.relabel (name : String → String) : List String → Expr → Expr
  | texts, .number text isFloat => .number (texts.headD text) isFloat
  | _, .var x => .var (name x)
  | texts, .unary op operand => .unary op (operand.relabel name texts)
  | texts, .binary op left right =>
      .binary op (left.relabel name texts) (right.relabel name (texts.drop left.numbers.length))
  | texts, .call function args => .call (name function) (Expr.relabelList name texts args)

def Expr.relabelList (name : String → String) : List String → List Expr → List Expr
  | _, [] => []
  | texts, e :: es =>
      e.relabel name texts :: Expr.relabelList name (texts.drop e.numbers.length) es

end

mutual

def Statement.relabel (name : String → String) : List String → Statement → Statement
  | texts, .assignment target value => .assignment (name target) (value.relabel name texts)
  | texts, .definition f params body =>
      .definition (name f) (params.map name) (Statement.relabelList name texts body)
  | texts, .returning value => .returning (value.relabel name texts)
  | texts, .expression value => .expression (value.relabel name texts)

def Statement.relabelList (name : String → String) : List String → List Statement → List Statement
  | _, [] => []
  | texts, s :: ss =>
      s.relabel name texts :: Statement.relabelList name (texts.drop s.numbers.length) ss

end

def Program.relabel (name : String → String) (texts : List String) (p : Program) : Program :=
  ⟨Statement.relabelList name texts p.statements⟩

/-! Numbers of a spelling. -/

def keyNumbers (keys : List Key) : List String :=
  keys.filterMap keyNumber?

@[simp] theorem keyNumbers_nil : keyNumbers [] = [] := rfl

@[simp] theorem keyNumbers_append (keys more : List Key) :
    keyNumbers (keys ++ more) = keyNumbers keys ++ keyNumbers more :=
  List.filterMap_append

@[simp] theorem keyNumbers_number (isFloat : Bool) (text : String) (keys : List Key) :
    keyNumbers ((Expr.numberKind isFloat, text) :: keys) = text :: keyNumbers keys := by
  cases isFloat <;> rfl

@[simp] theorem keyNumbers_cons {kind : Token.Kind} (hinteger : kind ≠ .integer)
    (hfloat : kind ≠ .float) (text : String) (keys : List Key) :
    keyNumbers ((kind, text) :: keys) = keyNumbers keys := by
  apply List.filterMap_cons_none
  cases kind with
  | integer => exact absurd rfl hinteger
  | float => exact absurd rfl hfloat
  | keyword | identifier | string | operator | punctuation => rfl

theorem keyNumbers_bare (keys : List Key) : keyNumbers (bare keys) = keyNumbers keys := by
  induction keys with
  | nil => rfl
  | cons k keys ih =>
      by_cases hopen : k = (.punctuation, "(")
      · subst hopen
        exact ih
      · by_cases hclose : k = (.punctuation, ")")
        · subst hclose
          exact ih
        · rw [bare_cons hopen hclose, keyNumbers, List.filterMap_cons, keyNumbers,
            List.filterMap_cons, ← keyNumbers, ← keyNumbers, ih]

theorem Token.numbers_eq_keyNumbers (ts : List Token) :
    Token.numbers ts = keyNumbers (ts.map key) := by
  rw [Token.numbers, keyNumbers, List.filterMap_map]
  rfl

mutual

theorem Expr.keyNumbers_spelling : ∀ e : Expr, keyNumbers e.spelling = e.numbers
  | .number text isFloat => by simp [Expr.spelling, Expr.numbers]
  | .var name => by simp [Expr.spelling, Expr.numbers]
  | .unary op operand => by
      simp [Expr.spelling, Expr.numbers, Expr.keyNumbers_spelling operand]
  | .binary op left right => by
      simp [Expr.spelling, Expr.numbers, Expr.keyNumbers_spelling left,
        Expr.keyNumbers_spelling right]
  | .call function args => by
      simp [Expr.spelling, Expr.numbers, Expr.keyNumbers_spellingList args]

theorem Expr.keyNumbers_spellingList :
    ∀ es : List Expr, keyNumbers (Expr.spellingList es) = Expr.numbersList es
  | [] => rfl
  | e :: es => by
      simp [Expr.spellingList, Expr.numbersList, Expr.keyNumbers_spelling e,
        Expr.keyNumbers_spellingMore es]

theorem Expr.keyNumbers_spellingMore :
    ∀ es : List Expr, keyNumbers (Expr.spellingMore es) = Expr.numbersList es
  | [] => rfl
  | e :: es => by
      simp [Expr.spellingMore, Expr.numbersList, Expr.keyNumbers_spelling e,
        Expr.keyNumbers_spellingMore es]

end

theorem keyNumbers_spellingMoreNames (names : List String) :
    keyNumbers (spellingMoreNames names) = [] := by
  induction names with
  | nil => rfl
  | cons name names ih => simp [spellingMoreNames, ih]

theorem keyNumbers_spellingNames (names : List String) :
    keyNumbers (spellingNames names) = [] := by
  cases names with
  | nil => rfl
  | cons name names => simp [spellingNames, keyNumbers_spellingMoreNames]

mutual

theorem Statement.keyNumbers_spelling : ∀ s : Statement, keyNumbers s.spelling = s.numbers
  | .assignment target value => by
      simp [Statement.spelling, Statement.numbers, Expr.keyNumbers_spelling]
  | .definition name params body => by
      simp [Statement.spelling, Statement.numbers, keyNumbers_spellingNames,
        Statement.keyNumbers_spellingList body]
  | .returning value => by
      simp [Statement.spelling, Statement.numbers, Expr.keyNumbers_spelling]
  | .expression value => by
      simp [Statement.spelling, Statement.numbers, Expr.keyNumbers_spelling]

theorem Statement.keyNumbers_spellingList :
    ∀ ss : List Statement, keyNumbers (Statement.spellingList ss) = Statement.numbersList ss
  | [] => rfl
  | s :: ss => by
      simp [Statement.spellingList, Statement.numbersList, Statement.keyNumbers_spelling s,
        Statement.keyNumbers_spellingList ss]

end

/-- A program has the numbers of its tokens, in their order. -/
theorem Program.numbers_of_ofTokens {ts : List Token} {p : Program} (h : ofTokens ts = .ok p) :
    p.numbers = Token.numbers ts := by
  have hbare := (ofTokensWithin_eq_ok_iff.mp h).bare_eq
  rw [Token.numbers_eq_keyNumbers, ← keyNumbers_bare, hbare, keyNumbers_bare,
    Statement.keyNumbers_spellingList, numbers]

namespace Relabelling

variable (m : Relabelling)

mutual

theorem numbers_expr : ∀ e : Expr, (m.expr e).numbers = e.numbers.map m.literal
  | .number text isFloat => rfl
  | .var name => rfl
  | .unary op operand => numbers_expr operand
  | .binary op left right => by
      simp only [expr, Expr.numbers, numbers_expr left, numbers_expr right, List.map_append]
  | .call function args => numbers_exprs args

theorem numbers_exprs :
    ∀ es : List Expr, Expr.numbersList (m.exprs es) = (Expr.numbersList es).map m.literal
  | [] => rfl
  | e :: es => by
      simp only [exprs, Expr.numbersList, numbers_expr e, numbers_exprs es, List.map_append]

end

mutual

theorem numbers_statement : ∀ s : Statement, (m.statement s).numbers = s.numbers.map m.literal
  | .assignment _ value => m.numbers_expr value
  | .definition _ _ body => numbers_statements body
  | .returning value => m.numbers_expr value
  | .expression value => m.numbers_expr value

theorem numbers_statements : ∀ ss : List Statement,
    Statement.numbersList (m.statements ss) = (Statement.numbersList ss).map m.literal
  | [] => rfl
  | s :: ss => by
      simp only [statements, Statement.numbersList, numbers_statement s, numbers_statements ss,
        List.map_append]

end

/-! From some labels to others. -/

/-- The names of `m'` are those of `m` with `name` after them. -/
def NamesBy (name : String → String) (m m' : Relabelling) : Prop :=
  ∀ x, m'.name x = name (m.name x)

variable {m m' : Relabelling} {name : String → String}

theorem length_numbers_expr (e : Expr) :
    (m.expr e).numbers.length = (m'.expr e).numbers.length := by
  rw [numbers_expr, numbers_expr, List.length_map, List.length_map]

theorem length_numbers_statement (s : Statement) :
    (m.statement s).numbers.length = (m'.statement s).numbers.length := by
  rw [numbers_statement, numbers_statement, List.length_map, List.length_map]

mutual

theorem relabel_expr (h : NamesBy name m m') (more : List String) : ∀ e : Expr,
    (m.expr e).relabel name ((m'.expr e).numbers ++ more) = m'.expr e
  | .number text isFloat => rfl
  | .var x => congrArg Expr.var (h x).symm
  | .unary op operand => congrArg (Expr.unary op) (relabel_expr h more operand)
  | .binary op left right => by
      simp only [expr, Expr.numbers, Expr.relabel, List.append_assoc, relabel_expr h _ left]
      rw [length_numbers_expr left, List.drop_left, relabel_expr h more right]
  | .call function args => by
      simp only [expr, Expr.numbers, Expr.relabel, relabel_exprs h more args, h function]

theorem relabel_exprs (h : NamesBy name m m') (more : List String) : ∀ es : List Expr,
    Expr.relabelList name (Expr.numbersList (m'.exprs es) ++ more) (m.exprs es) = m'.exprs es
  | [] => rfl
  | e :: es => by
      simp only [exprs, Expr.numbersList, Expr.relabelList, List.append_assoc, relabel_expr h _ e]
      rw [length_numbers_expr e, List.drop_left, relabel_exprs h more es]

end

theorem NamesBy.map_name (h : NamesBy name m m') (names : List String) :
    (names.map m.name).map name = names.map m'.name := by
  rw [List.map_map]
  exact List.map_congr_left fun x _ => (h x).symm

mutual

theorem relabel_statement (h : NamesBy name m m') (more : List String) : ∀ s : Statement,
    (m.statement s).relabel name ((m'.statement s).numbers ++ more) = m'.statement s
  | .assignment target value => by
      simp only [statement, Statement.numbers, Statement.relabel, relabel_expr h more value,
        h target]
  | .definition f params body => by
      simp only [statement, Statement.numbers, Statement.relabel, relabel_statements h more body,
        h f, h.map_name params]
  | .returning value => congrArg Statement.returning (relabel_expr h more value)
  | .expression value => congrArg Statement.expression (relabel_expr h more value)

theorem relabel_statements (h : NamesBy name m m') (more : List String) :
    ∀ ss : List Statement,
      Statement.relabelList name (Statement.numbersList (m'.statements ss) ++ more)
        (m.statements ss) = m'.statements ss
  | [] => rfl
  | s :: ss => by
      simp only [statements, Statement.numbersList, Statement.relabelList, List.append_assoc,
        relabel_statement h _ s]
      rw [length_numbers_statement s, List.drop_left, relabel_statements h more ss]

end

/-- One program with two sets of labels: the second is the first with the second's names and numbers
put in their places. -/
theorem relabel_program (h : NamesBy name m m') (p : Program) :
    (m.program p).relabel name (m'.program p).numbers = m'.program p := by
  have hstatements := relabel_statements h [] p.statements
  rw [List.append_nil] at hstatements
  exact congrArg Program.mk hstatements

end Relabelling

end ExprFront
