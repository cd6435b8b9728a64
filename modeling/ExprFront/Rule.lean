import ExprFront.Text.Blank
import ExprFront.Token

/-!
The lexical rules. Each takes a run of characters off the front of a text, or nothing where it does
not apply; `munch_isPrefix` says that it takes them as they stand. Letters and digits are those of
ASCII.
-/

namespace ExprFront

/-- The lexical rules. Newlines, blanks and comments separate tokens and leave none themselves. -/
inductive Rule where
  | newline
  | blank
  | comment
  | token (kind : Token.Kind)
  deriving DecidableEq

namespace Rule

def isWordStart (c : Char) : Bool := c.isAlpha || c == '_'

def isWordChar (c : Char) : Bool := c.isAlphanum || c == '_'

def startsWord (cs : List Char) : Bool := cs.head?.any isWordChar

def word : List Char → List Char
  | [] => []
  | c :: cs => if isWordStart c then c :: cs.takeWhile isWordChar else []

def digits (cs : List Char) : List Char := cs.takeWhile Char.isDigit

def afterDigits (cs : List Char) : List Char := cs.dropWhile Char.isDigit

/-- A point and the digits after it, or nothing where a digit is missing. -/
def fraction : List Char → List Char
  | '.' :: cs => if digits cs = [] then [] else '.' :: digits cs
  | _ => []

/-- The digits at the front of a text, unless a fraction or a word follows them. -/
def integer (cs : List Char) : List Char :=
  if startsWord (afterDigits cs) ∨ fraction (afterDigits cs) ≠ [] then [] else digits cs

/-- Digits with a fraction, unless a word follows them. -/
def float (cs : List Char) : List Char :=
  let tail := afterDigits cs
  if digits cs = [] ∨ fraction tail = [] ∨ startsWord (tail.drop (fraction tail).length) then []
  else digits cs ++ fraction tail

/-- A double quote and everything up to the next one, over as many lines as that takes. -/
def string : List Char → List Char
  | '"' :: cs => if '"' ∈ cs then '"' :: cs.takeWhile (· ≠ '"') ++ ['"'] else []
  | _ => []

/-- The first operator of the table that a text begins with. -/
def operator (cs : List Char) : List Char :=
  ((Token.operators.map String.toList).find? (·.isPrefixOf cs)).getD []

def punctuation : List Char → List Char
  | c :: _ => if c ∈ Token.punctuation then [c] else []
  | [] => []

/-- A number sign and the rest of its line. -/
def lineComment : List Char → List Char
  | '#' :: cs => '#' :: cs.takeWhile (· ≠ '\n')
  | _ => []

def munch : Rule → List Char → List Char
  | .newline, cs => if cs.head? = some '\n' then ['\n'] else []
  | .blank, cs => cs.takeWhile fun c => Text.isBlank c && c ≠ '\n'
  | .comment, cs => lineComment cs
  | .token .keyword, cs => if String.ofList (word cs) ∈ Token.keywords then word cs else []
  | .token .identifier, cs => word cs
  | .token .integer, cs => integer cs
  | .token .float, cs => float cs
  | .token .string, cs => string cs
  | .token .operator, cs => operator cs
  | .token .punctuation, cs => punctuation cs

theorem word_isPrefix (cs : List Char) : word cs <+: cs := by
  unfold word
  split
  · exact List.nil_prefix
  · split
    · exact List.cons_prefix_cons.mpr ⟨rfl, List.takeWhile_prefix _⟩
    · exact List.nil_prefix

theorem digits_append_afterDigits (cs : List Char) : digits cs ++ afterDigits cs = cs :=
  List.takeWhile_append_dropWhile

theorem digits_isPrefix (cs : List Char) : digits cs <+: cs :=
  List.takeWhile_prefix _

theorem fraction_isPrefix (cs : List Char) : fraction cs <+: cs := by
  unfold fraction
  split
  · split
    · exact List.nil_prefix
    · exact List.cons_prefix_cons.mpr ⟨rfl, digits_isPrefix _⟩
  · exact List.nil_prefix

theorem integer_isPrefix (cs : List Char) : integer cs <+: cs := by
  unfold integer
  split
  · exact List.nil_prefix
  · exact digits_isPrefix cs

theorem float_isPrefix (cs : List Char) : float cs <+: cs := by
  simp only [float]
  split
  · exact List.nil_prefix
  · conv => rhs; rw [← digits_append_afterDigits cs]
    exact (List.prefix_append_right_inj _).mpr (fraction_isPrefix _)

theorem takeWhile_append_isPrefix {mark : Char} {cs : List Char} (h : mark ∈ cs) :
    cs.takeWhile (· ≠ mark) ++ [mark] <+: cs := by
  induction cs with
  | nil => contradiction
  | cons c cs ih =>
      by_cases hc : c = mark
      · simp [hc]
      · have hm : mark ∈ cs := (List.mem_cons.mp h).resolve_left (Ne.symm hc)
        simpa [hc] using ih hm

theorem string_isPrefix (cs : List Char) : string cs <+: cs := by
  unfold string
  split
  · split
    · next h => exact List.cons_prefix_cons.mpr ⟨rfl, takeWhile_append_isPrefix h⟩
    · exact List.nil_prefix
  · exact List.nil_prefix

theorem operator_isPrefix (cs : List Char) : operator cs <+: cs := by
  unfold operator
  cases h : (Token.operators.map String.toList).find? (·.isPrefixOf cs) with
  | none => exact List.nil_prefix
  | some op => exact List.isPrefixOf_iff_prefix.mp (by simpa using List.find?_some h)

theorem punctuation_isPrefix (cs : List Char) : punctuation cs <+: cs := by
  unfold punctuation
  split
  · split
    · exact ⟨_, rfl⟩
    · exact List.nil_prefix
  · exact List.nil_prefix

theorem lineComment_isPrefix (cs : List Char) : lineComment cs <+: cs := by
  unfold lineComment
  split
  · exact List.cons_prefix_cons.mpr ⟨rfl, List.takeWhile_prefix _⟩
  · exact List.nil_prefix

/-- What a rule takes is the front of the text, character by character. -/
theorem munch_isPrefix (rule : Rule) (cs : List Char) : rule.munch cs <+: cs := by
  cases rule with
  | newline =>
      simp only [munch]
      split
      · next h =>
          obtain ⟨tail, rfl⟩ := List.head?_eq_some_iff.mp h
          exact ⟨tail, rfl⟩
      · exact List.nil_prefix
  | blank => exact List.takeWhile_prefix _
  | comment => exact lineComment_isPrefix cs
  | token kind =>
      cases kind with
      | keyword =>
          simp only [munch]
          split
          · exact word_isPrefix cs
          · exact List.nil_prefix
      | identifier => exact word_isPrefix cs
      | integer => exact integer_isPrefix cs
      | float => exact float_isPrefix cs
      | string => exact string_isPrefix cs
      | operator => exact operator_isPrefix cs
      | punctuation => exact punctuation_isPrefix cs

/-- The rules in the order in which they are tried. A keyword is also a word, so its rule comes
before the identifiers'. -/
def table : List Rule :=
  [newline, blank, token .keyword, token .identifier, token .integer, token .float, token .string,
    token .operator, token .punctuation, comment]

/-- The first rule of a table that takes anything off the front of a text. -/
def first? (rules : List Rule) (cs : List Char) : Option Rule :=
  rules.find? (·.munch cs ≠ [])

theorem munch_ne_nil_of_first? {rules : List Rule} {cs : List Char} {rule : Rule}
    (h : first? rules cs = some rule) : rule.munch cs ≠ [] := by
  simpa using List.find?_some h

end Rule

end ExprFront
