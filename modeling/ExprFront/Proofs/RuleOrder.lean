import ExprFront.Proofs.Scanning
import Mathlib.Data.List.Basic

/-!
The order of the rules. Two rules apply in one place only where a keyword is also taken for a word,
and then they take the same text. So the rules may be tried in any order in which keywords come
before words, and in no other.
-/

namespace ExprFront

namespace Rule

variable {rules : List Rule} {rule other : Rule} {cs : List Char}

theorem munch_keyword (h : munch (token .keyword) cs ≠ []) :
    munch (token .keyword) cs = munch (token .identifier) cs := by
  rw [munch] at h ⊢
  split at h
  · next hmem =>
      rw [if_pos hmem]
      rfl
  · exact absurd rfl h

/-- Two rules that apply in one place take the same text there. -/
theorem munch_eq_of_word (h : rule.munch cs ≠ []) (hother : other.munch cs ≠ [])
    (hword : (rule = token .keyword ∧ other = token .identifier) ∨
      (rule = token .identifier ∧ other = token .keyword)) : rule.munch cs = other.munch cs := by
  rcases hword with ⟨rfl, rfl⟩ | ⟨rfl, rfl⟩
  · exact munch_keyword h
  · exact (munch_keyword hother).symm

/-- A table tries the rule that a text falls to before all others that apply there. -/
theorem idxOf_le_of_first? (h : first? rules cs = some rule) (hother : other.munch cs ≠ []) :
    rules.idxOf rule ≤ rules.idxOf other := by
  obtain ⟨_, before, after, rfl, hbefore⟩ := List.find?_eq_some_iff_append.mp h
  have hnot : ∀ x, x.munch cs ≠ [] → x ∉ before := by
    intro x hx hmem
    simpa [hx] using hbefore x hmem
  rw [List.idxOf_append_of_notMem (hnot rule (munch_ne_nil_of_first? h)),
    List.idxOf_append_of_notMem (hnot other hother), List.idxOf_cons_self]
  exact Nat.le_add_right _ _

theorem first?_ne_none (hmem : rule ∈ rules) (h : rule.munch cs ≠ []) : first? rules cs ≠ none := by
  intro hnone
  simpa [h] using List.find?_eq_none.mp hnone rule hmem

/-- A table of all rules in which keywords come before words gives each text to the rule that it
falls to in the order of the table above. -/
theorem first?_eq_of_keyword_before (hall : ∀ rule, rule ∈ rules)
    (horder : rules.idxOf (token .keyword) < rules.idxOf (token .identifier)) (cs : List Char) :
    first? rules cs = first? table cs := by
  cases htable : first? table cs with
  | none =>
      apply List.find?_eq_none.mpr
      intro rule _
      simpa using munch_eq_nil_of_first? htable rule
  | some rule =>
      obtain ⟨hne, hword⟩ := first?_table_eq_some_iff.mp htable
      cases hfirst : first? rules cs with
      | none => exact absurd hfirst (first?_ne_none (hall rule) hne)
      | some other =>
          have hother := munch_ne_nil_of_first? hfirst
          rcases eq_or_word_of_munch hne hother with heq | ⟨rfl, rfl⟩ | ⟨rfl, rfl⟩
          · rw [heq]
          · have hle := idxOf_le_of_first? hfirst hne
            omega
          · exact absurd (hword rfl) hother

end Rule

namespace Scan

open Rule

variable {rules : List Rule}

/-- A scan knows its table by the rules that texts fall to. -/
theorem resume_congr {others : List Rule} (h : ∀ cs, first? rules cs = first? others cs)
    (done : List Lexeme) (start : Position) (cs : List Char) :
    resume rules done start cs = resume others done start cs := by
  induction hn : cs.length using Nat.strongRecOn generalizing done start cs with
  | ind length ih =>
      cases hfirst : first? others cs with
      | none => rw [resume_of_none hfirst, resume_of_none ((h cs).trans hfirst)]
      | some rule =>
          have hprefix := (rule.munch_isPrefix cs).length_le
          have hne := List.length_pos_iff.mpr (munch_ne_nil_of_first? hfirst)
          have hlength : (cs.drop (rule.munch cs).length).length < length := by
            rw [List.length_drop]
            omega
          rw [resume_of_first? hfirst, resume_of_first? ((h cs).trans hfirst)]
          exact ih _ hlength _ _ _ rfl

/-- The word `def` alone is a token of the kind whose rule it falls to. -/
theorem tokens_def {kind : Token.Kind} (h : first? rules "def".toList = some (token kind))
    (hmunch : munch (token kind) "def".toList = "def".toList) :
    (ofText rules "def".toList).tokens = .ok [⟨kind, "def", .start⟩] := by
  have hnone : first? rules [] = none := by
    apply List.find?_eq_none.mpr
    intro rule _
    simpa using munch_nil rule
  rw [ofText, resume_of_first? h, hmunch, List.drop_length, resume_of_none hnone]
  rfl

/-- Where words are tried before keywords, `def` is taken for a word. -/
theorem keyword_before_of_tokens_def (hall : ∀ rule, rule ∈ rules)
    (h : (ofText rules "def".toList).tokens = (ofText table "def".toList).tokens) :
    rules.idxOf (token .keyword) < rules.idxOf (token .identifier) := by
  have hkeyword : munch (token .keyword) "def".toList = "def".toList := by decide
  have hword : munch (token .identifier) "def".toList = "def".toList := by decide
  have hne : "def".toList ≠ [] := by decide
  have htable : first? table "def".toList = some (token .keyword) := by
    rw [first?_table_eq_some_iff, hkeyword]
    exact ⟨hne, nofun⟩
  rw [tokens_def htable hkeyword] at h
  have happlies : ∀ {kind}, munch (token kind) "def".toList = "def".toList →
      munch (token kind) "def".toList ≠ [] := fun heq hnil => hne (heq.symm.trans hnil)
  cases hfirst : first? rules "def".toList with
  | none => exact absurd hfirst (first?_ne_none (hall _) (happlies hkeyword))
  | some rule =>
      have hfalls : rule = token .keyword := by
        rcases eq_or_word_of_munch (happlies hkeyword) (munch_ne_nil_of_first? hfirst) with
          heq | ⟨_, rfl⟩ | ⟨hkind, _⟩
        · exact heq.symm
        · rw [tokens_def hfirst hword] at h
          cases h
        · cases hkind
      rw [hfalls] at hfirst
      have hle := idxOf_le_of_first? hfirst (happlies hword)
      have hdistinct : rules.idxOf (token .keyword) ≠ rules.idxOf (token .identifier) := by
        intro heq
        cases (List.idxOf_inj (hall _)).mp heq
      omega

end Scan

namespace Token

open Rule

/-- In any order of the rules, keywords are tried before words exactly if every source comes to the
same tokens or the same error as in the order of the table. For in one place no two rules apply but
these two, and they take the same. -/
theorem ofSource_eq_reordered {rules : List Rule} (h : rules.Perm table) :
    (rules.idxOf (token .keyword) < rules.idxOf (token .identifier) ↔
      ∀ source : String, (Scan.ofText rules source.toList).tokens = ofSource source) ∧
    ∀ (cs : List Char) (rule other : Rule), rule.munch cs ≠ [] → other.munch cs ≠ [] →
      rule = other ∨ rule.munch cs = other.munch cs ∧
        ((rule = token .keyword ∧ other = token .identifier) ∨
          (rule = token .identifier ∧ other = token .keyword)) := by
  have hall : ∀ rule, rule ∈ rules := fun rule => h.mem_iff.mpr (mem_table rule)
  refine ⟨⟨?_, ?_⟩, ?_⟩
  · intro horder source
    rw [ofSource, Scan.ofText, Scan.resume_congr (first?_eq_of_keyword_before hall horder)]
    rfl
  · intro hsame
    exact Scan.keyword_before_of_tokens_def hall (hsame "def")
  · intro cs rule other hrule hother
    rcases eq_or_word_of_munch hrule hother with heq | hword
    · exact .inl heq
    · exact .inr ⟨munch_eq_of_word hrule hother hword, hword⟩

/-- The rules of the table from the last to the first, but for keywords and words. -/
theorem ofSource_eq_reordered_backwards :
    let rules : List Rule :=
      [comment, token .punctuation, token .operator, token .string, token .float, token .integer,
        token .keyword, token .identifier, blank, newline]
    let cs := "def f".toList
    rules.Perm table ∧ rules.idxOf (token .keyword) < rules.idxOf (token .identifier) ∧
      (∀ source : String, (Scan.ofText rules source.toList).tokens = ofSource source) ∧
      munch (token .keyword) cs ≠ [] ∧ munch (token .identifier) cs ≠ [] ∧
      munch (token .keyword) cs = munch (token .identifier) cs := by
  intro rules cs
  have hperm : rules.Perm table := by decide
  have horder : rules.idxOf (token .keyword) < rules.idxOf (token .identifier) := by decide
  have hkeyword : munch (token .keyword) cs ≠ [] := by decide
  have hword : munch (token .identifier) cs ≠ [] := by decide
  obtain ⟨hsame, happly⟩ := ofSource_eq_reordered hperm
  refine ⟨hperm, horder, hsame.mp horder, hkeyword, hword, ?_⟩
  rcases happly cs _ _ hkeyword hword with heq | ⟨heq, _⟩
  · cases heq
  · exact heq

end Token

end ExprFront
