import ExprFront.Proofs.Delimited
import ExprFront.Text.Quoted

/-!
Quoted text tells where it ends. Every character's written form is read back whatever follows it,
and none begins with the closing mark.
-/

namespace ExprFront.Text

/-! Hexadecimal numbers. -/

def hexDigitValue (c : Char) : Nat :=
  if c.isDigit then c.toNat - '0'.toNat else c.toNat - 'a'.toNat + 10

def ofHexDigits (cs : List Char) : Nat :=
  cs.foldl (fun n c => 16 * n + hexDigitValue c) 0

theorem hexDigitValue_digitChar : ∀ d < 16, hexDigitValue (Nat.digitChar d) = d := by decide

theorem ofHexDigits_toDigits (n : Nat) : ofHexDigits (Nat.toDigits 16 n) = n := by
  induction n using Nat.strongRecOn with
  | ind n ih =>
      rw [Nat.toDigits_eq_if (by decide)]
      split
      · next h =>
          simp [ofHexDigits, hexDigitValue_digitChar n h]
      · next h =>
          have hfront := ih (n / 16) (by omega)
          rw [ofHexDigits] at hfront ⊢
          rw [List.foldl_append, hfront]
          have hlast := hexDigitValue_digitChar (n % 16) (Nat.mod_lt n (by decide))
          simp only [List.foldl_cons, List.foldl_nil, hlast]
          omega

theorem exists_digitChar_of_mem_toDigits {n : Nat} {c : Char} (h : c ∈ Nat.toDigits 16 n) :
    ∃ d < 16, c = Nat.digitChar d := by
  induction n using Nat.strongRecOn with
  | ind n ih =>
      rw [Nat.toDigits_eq_if (by decide)] at h
      split at h
      · next hn => exact ⟨n, hn, List.mem_singleton.mp h⟩
      · next hn =>
          rcases List.mem_append.mp h with h | h
          · exact ih (n / 16) (by omega) h
          · exact ⟨n % 16, Nat.mod_lt n (by decide), List.mem_singleton.mp h⟩

theorem not_mem_toDigits {c : Char} (h : ∀ d < 16, c ≠ Nat.digitChar d) (n : Nat) :
    c ∉ Nat.toDigits 16 n := by
  intro hmem
  obtain ⟨d, hd, hc⟩ := exists_digitChar_of_mem_toDigits hmem
  exact h d hd hc

/-! Characters. -/

/-- The letters that stand for a character after a backslash. -/
def letters : List (Char × Char) :=
  [('0', '\x00'), ('t', '\t'), ('r', '\r'), ('n', '\n')]

/-- The written forms of a character: by a letter, after a backslash, by its code point, or as it
is. -/
inductive Written (mark c : Char) : List Char → Prop
  | letter {l : Char} (h : (l, c) ∈ letters) : Written mark c ['\\', l]
  | marked (h : c = '\\' ∨ c = mark) : Written mark c ['\\', c]
  | codePoint : Written mark c (['\\', 'u', '\x7b'] ++ Nat.toDigits 16 c.toNat ++ ['\x7d'])
  | plain (hline : c ≠ '\n') (hbackslash : c ≠ '\\') (hmark : c ≠ mark) : Written mark c [c]

theorem written_escape (mark c : Char) : Written mark c (escape mark c) := by
  unfold escape
  split
  · next h => exact .letter (by rw [h]; decide)
  split
  · next h => exact .letter (by rw [h]; decide)
  split
  · next h => exact .letter (by rw [h]; decide)
  split
  · next h => exact .letter (by rw [h]; decide)
  split
  · next h => exact .marked h
  split
  · exact .codePoint
  · next hline hneither _ =>
      exact .plain hline (fun hc => hneither (.inl hc)) fun hc => hneither (.inr hc)

/-- What may stand around quoted text: it begins no written form and has no other meaning after a
backslash. -/
def IsMark (c : Char) : Prop :=
  c ∉ ['\n', '\\', '0', 't', 'r', 'n', 'u']

instance : DecidablePred IsMark :=
  fun c => inferInstanceAs (Decidable (c ∉ _))

/-- The character whose written form a text begins with, and what follows it. -/
def unescape? : List Char → Option (Char × List Char)
  | [] => none
  | '\\' :: '0' :: cs => some ('\x00', cs)
  | '\\' :: 't' :: cs => some ('\t', cs)
  | '\\' :: 'r' :: cs => some ('\r', cs)
  | '\\' :: 'n' :: cs => some ('\n', cs)
  | '\\' :: 'u' :: '\x7b' :: cs =>
      some (Char.ofNat (ofHexDigits (cs.takeWhile (· ≠ '\x7d'))), (cs.dropWhile (· ≠ '\x7d')).tail)
  | '\\' :: c :: cs => some (c, cs)
  | c :: cs => some (c, cs)

variable {mark : Char}

theorem unescape?_letter {l c : Char} (h : (l, c) ∈ letters) (rest : List Char) :
    unescape? ('\\' :: l :: rest) = some (c, rest) := by
  simp only [letters, List.mem_cons, List.not_mem_nil, or_false, Prod.mk.injEq] at h
  rcases h with ⟨rfl, rfl⟩ | ⟨rfl, rfl⟩ | ⟨rfl, rfl⟩ | ⟨rfl, rfl⟩ <;> rfl

theorem unescape?_marked {c : Char} (h : c ∉ ['0', 't', 'r', 'n', 'u']) (rest : List Char) :
    unescape? ('\\' :: c :: rest) = some (c, rest) := by
  simp only [List.mem_cons, List.not_mem_nil, or_false, not_or] at h
  simp [unescape?, h]

theorem unescape?_codePoint (c : Char) (rest : List Char) :
    unescape? (['\\', 'u', '\x7b'] ++ Nat.toDigits 16 c.toNat ++ ['\x7d'] ++ rest) =
      some (c, rest) := by
  have hdigits : ∀ d ∈ Nat.toDigits 16 c.toNat, decide (d ≠ '\x7d') := by
    intro d hd
    rw [decide_eq_true_iff]
    rintro rfl
    exact not_mem_toDigits (by decide) _ hd
  simp only [List.cons_append, List.nil_append, List.append_assoc, unescape?]
  rw [List.takeWhile_append_of_pos hdigits, List.dropWhile_append_of_pos hdigits]
  simp [ofHexDigits_toDigits]

theorem unescape?_plain {c : Char} (h : c ≠ '\\') (rest : List Char) :
    unescape? (c :: rest) = some (c, rest) := by
  simp [unescape?, h]

theorem Written.unescape?_eq (hmark : IsMark mark) {c : Char} {form : List Char}
    (h : Written mark c form) (rest : List Char) : unescape? (form ++ rest) = some (c, rest) := by
  cases h with
  | letter h => exact unescape?_letter h rest
  | marked h =>
      apply unescape?_marked
      rcases h with rfl | rfl
      · decide
      · simp only [IsMark, List.mem_cons, not_or] at hmark ⊢
        exact hmark.2.2
  | codePoint => exact unescape?_codePoint c rest
  | plain _ hbackslash _ => exact unescape?_plain hbackslash rest

theorem Written.append_ne (hmark : IsMark mark) {c : Char} {form : List Char}
    (h : Written mark c form) (rest more : List Char) : form ++ rest ≠ mark :: more := by
  have hbackslash : '\\' ≠ mark := by
    rintro rfl
    exact hmark (by decide)
  intro heq
  cases h with
  | letter _ | marked _ | codePoint => exact hbackslash (List.head_eq_of_cons_eq heq)
  | plain _ _ hne => exact hne (List.head_eq_of_cons_eq heq)

theorem Written.newline_not_mem (hmark : IsMark mark) {c : Char} {form : List Char}
    (h : Written mark c form) : '\n' ∉ form := by
  cases h with
  | letter h =>
      have hletters : ∀ pair ∈ letters, '\n' ∉ ['\\', pair.1] := by decide
      exact hletters _ h
  | marked h =>
      rcases h with rfl | rfl
      · decide
      · have hne : '\n' ≠ c := fun hc => hmark (hc ▸ List.mem_cons_self)
        simp [hne]
  | codePoint =>
      have hdigits := not_mem_toDigits (c := '\n') (by decide) c.toNat
      simp [hdigits]
  | plain hline _ _ => simpa using Ne.symm hline

theorem selfDelimiting_escape (hmark : IsMark mark) : SelfDelimiting (escape mark) := by
  intro c d rest more heq
  have hread := (written_escape mark c).unescape?_eq hmark rest
  rw [heq, (written_escape mark d).unescape?_eq hmark more] at hread
  cases hread
  exact ⟨rfl, rfl⟩

/-! Texts. -/

theorem selfDelimiting_quote (hmark : IsMark mark) : SelfDelimiting (quote mark) := by
  intro text other rest more heq
  have hends (c : Char) (rest more : List Char) : escape mark c ++ rest ≠ mark :: more :=
    (written_escape mark c).append_ne hmark rest more
  exact (selfDelimiting_escape hmark).flatMap_of_mark hends (List.tail_eq_of_cons_eq heq)

theorem newline_not_mem_quote (hmark : IsMark mark) (text : List Char) :
    '\n' ∉ quote mark text := by
  have hne : '\n' ≠ mark := by
    rintro rfl
    exact hmark List.mem_cons_self
  have hchar (c : Char) : '\n' ∉ escape mark c := (written_escape mark c).newline_not_mem hmark
  simp [quote, hne, hchar]

theorem selfDelimiting_quoted : SelfDelimiting fun text : String => (quoted text).toList := by
  intro text other rest more heq
  simp only [quoted, String.toList_ofList] at heq
  obtain ⟨htext, hrest⟩ := selfDelimiting_quote (by decide) heq
  exact ⟨String.toList_inj.mp htext, hrest⟩

end ExprFront.Text
