/-!
Written forms that tell where they end. Whatever is written after such a form, where it ends can be
told from the text, so that the form and what follows it are both known.
-/

namespace ExprFront.Text

variable {α : Type}

/-- What is written for two things, with anything after it, is alike only where the two are the
same, and then the same follows. -/
def SelfDelimiting (write : α → List Char) : Prop :=
  ∀ ⦃a b : α⦄ ⦃rest more : List Char⦄, write a ++ rest = write b ++ more → a = b ∧ rest = more

/-- A run of characters of one class is known where a character of another class ends it. -/
theorem span_inj {p : Char → Bool} {run other : List Char} {c d : Char} {rest more : List Char}
    (hrun : ∀ x ∈ run, p x) (hother : ∀ x ∈ other, p x) (hc : ¬ p c) (hd : ¬ p d)
    (h : run ++ c :: rest = other ++ d :: more) : run = other ∧ c :: rest = d :: more := by
  induction run generalizing other with
  | nil =>
      cases other with
      | nil => exact ⟨rfl, h⟩
      | cons y other =>
          obtain rfl : c = y := List.head_eq_of_cons_eq h
          exact absurd (hother c List.mem_cons_self) hc
  | cons x run ih =>
      obtain ⟨hx, hrun⟩ := List.forall_mem_cons.mp hrun
      cases other with
      | nil =>
          obtain rfl : x = d := List.head_eq_of_cons_eq h
          exact absurd hx hd
      | cons y other =>
          obtain rfl : x = y := List.head_eq_of_cons_eq h
          obtain ⟨rfl, hrest⟩ :=
            ih hrun (List.forall_mem_cons.mp hother).2 (List.tail_eq_of_cons_eq h)
          exact ⟨rfl, hrest⟩

theorem cut_inj {mark : Char} {text other rest more : List Char} (htext : mark ∉ text)
    (hother : mark ∉ other) (h : text ++ mark :: rest = other ++ mark :: more) :
    text = other ∧ rest = more := by
  have hne {text : List Char} (htext : mark ∉ text) : ∀ x ∈ text, x != mark := by
    intro x hx
    rw [bne_iff_ne]
    rintro rfl
    exact htext hx
  have hmark : ¬ (mark != mark) := by simp
  obtain ⟨rfl, hrest⟩ := span_inj (hne htext) (hne hother) hmark hmark h
  exact ⟨rfl, List.tail_eq_of_cons_eq hrest⟩

/-- Texts that are no fronts of each other are told apart at once. -/
theorem append_inj_of_isPrefix {text other rest more : List Char}
    (htext : text <+: other → text = other) (hother : other <+: text → other = text)
    (h : text ++ rest = other ++ more) : text = other ∧ rest = more := by
  obtain rfl : text = other := by
    rcases List.prefix_or_prefix_of_prefix (List.prefix_append text rest)
      (h ▸ List.prefix_append other more) with hfront | hfront
    · exact htext hfront
    · exact (hother hfront).symm
  exact ⟨rfl, List.append_cancel_left h⟩

namespace SelfDelimiting

variable {write : α → List Char}

theorem of_isPrefix (h : ∀ a b, write a <+: write b → a = b) : SelfDelimiting write := by
  intro a b rest more heq
  obtain ⟨hwrite, hrest⟩ := append_inj_of_isPrefix (fun hab => congrArg write (h a b hab))
    (fun hba => congrArg write (h b a hba)) heq
  exact ⟨h a b (hwrite ▸ List.prefix_rfl), hrest⟩

theorem append (h : SelfDelimiting write) (pad : α → List Char) :
    SelfDelimiting fun a => write a ++ pad a := by
  intro a b rest more heq
  rw [List.append_assoc, List.append_assoc] at heq
  obtain ⟨rfl, hrest⟩ := h heq
  exact ⟨rfl, List.append_cancel_left hrest⟩

/-- Forms of characters make forms of texts, which end at a mark that begins no character. -/
theorem flatMap_of_mark {mark : Char} (h : SelfDelimiting write)
    (hmark : ∀ a rest more, write a ++ rest ≠ mark :: more) :
    SelfDelimiting fun as : List α => as.flatMap write ++ [mark] := by
  intro as bs rest more heq
  simp only [List.append_assoc, List.singleton_append] at heq
  induction as generalizing bs with
  | nil =>
      cases bs with
      | nil => exact ⟨rfl, List.tail_eq_of_cons_eq heq⟩
      | cons b bs =>
          rw [List.flatMap_cons, List.append_assoc] at heq
          exact absurd heq.symm (hmark b _ _)
  | cons a as ih =>
      cases bs with
      | nil =>
          rw [List.flatMap_cons, List.append_assoc] at heq
          exact absurd heq (hmark a _ _)
      | cons b bs =>
          rw [List.flatMap_cons, List.flatMap_cons, List.append_assoc, List.append_assoc] at heq
          obtain ⟨rfl, hmore⟩ := h heq
          obtain ⟨rfl, hrest⟩ := ih hmore
          exact ⟨rfl, hrest⟩

theorem flatMap_injective (h : SelfDelimiting write) (hne : ∀ a, write a ≠ []) {as bs : List α}
    (heq : as.flatMap write = bs.flatMap write) : as = bs := by
  induction as generalizing bs with
  | nil =>
      cases bs with
      | nil => rfl
      | cons b bs =>
          rw [List.flatMap_nil, List.flatMap_cons] at heq
          exact absurd (List.append_eq_nil_iff.mp heq.symm).1 (hne b)
  | cons a as ih =>
      cases bs with
      | nil =>
          rw [List.flatMap_nil, List.flatMap_cons] at heq
          exact absurd (List.append_eq_nil_iff.mp heq).1 (hne a)
      | cons b bs =>
          rw [List.flatMap_cons, List.flatMap_cons] at heq
          obtain ⟨rfl, hrest⟩ := h heq
          rw [ih hrest]

end SelfDelimiting

end ExprFront.Text
