import ExprFront.Outline
import ExprFront.Proofs.Delimited
import ExprFront.Proofs.Spelling

/-!
Outlines that are told by their texts. In both layouts a group begins with its bracket, and then a
member and what follows it take turns; so what tells the members, one by one, tells the group.
-/

namespace ExprFront.Outline

open Text

/-! The two layouts as one. -/

/-- The text of an outline at a depth, which is seen only where members have lines of their own. -/
def textAt (layout : Layout) (depth : Nat) (o : Outline) : List Char :=
  match layout with
  | .oneLine => o.compact.toList
  | .indented => (o.indented depth).toList

theorem toList_render (o : Outline) (layout : Layout) :
    (o.render layout).toList = o.textAt layout 0 := by
  cases layout <;> rfl

namespace Layout

/-- What stands in a group without members, up to its end. -/
def nothing (b : Bracket) : Layout → List Char
  | oneLine => b.gap.toList ++ b.gap.toList ++ b.closing.toList
  | indented => b.closing.toList

/-- What stands before the first member of a group. -/
def lead (depth : Nat) (b : Bracket) : Layout → List Char
  | oneLine => b.gap.toList
  | indented => '\n' :: (indent (depth + 1)).toList

/-- What stands between two members. -/
def turn (depth : Nat) : Layout → List Char
  | oneLine => [',', ' ']
  | indented => ',' :: '\n' :: (indent (depth + 1)).toList

/-- What stands after the last member, up to the end of the group. -/
def last (depth : Nat) (b : Bracket) : Layout → List Char
  | oneLine => b.gap.toList ++ b.closing.toList
  | indented => ',' :: '\n' :: (indent depth).toList ++ b.closing.toList

end Layout

/-- The members of a group after the first, and its end. -/
def moreText (layout : Layout) (depth : Nat) (b : Bracket) : List Outline → List Char
  | [] => layout.last depth b
  | o :: os => layout.turn depth ++ (o.textAt layout (depth + 1) ++ moreText layout depth b os)

def membersText (layout : Layout) (depth : Nat) (b : Bracket) : List Outline → List Char
  | [] => layout.nothing b
  | o :: os =>
      layout.lead depth b ++ (o.textAt layout (depth + 1) ++ moreText layout depth b os)

theorem textAt_leaf (layout : Layout) (depth : Nat) (text : String) :
    (leaf text).textAt layout depth = text.toList := by
  cases layout <;> rfl

theorem textAt_field (layout : Layout) (depth : Nat) (name : String) (value : Outline) :
    (field name value).textAt layout depth =
      name.toList ++ ':' :: ' ' :: value.textAt layout depth := by
  cases layout <;> simp [textAt, compact, indented]

theorem toList_moreSeparated_compactList (depth : Nat) (b : Bracket) (os : List Outline) :
    (moreSeparated (compactList os)).toList ++ (b.gap.toList ++ b.closing.toList) =
      moreText .oneLine depth b os := by
  induction os with
  | nil => rfl
  | cons o os ih =>
      rw [compactList, moreSeparated_cons, moreText, ← ih]
      simp only [String.toList_append, List.append_assoc, Layout.turn, textAt]
      rfl

theorem toList_indentedList (depth : Nat) (b : Bracket) (os : List Outline) :
    ",\n".toList ++ ((indentedList (depth + 1) os).toList ++
        ((indent depth).toList ++ b.closing.toList)) =
      moreText .indented depth b os := by
  induction os with
  | nil => rfl
  | cons o os ih =>
      rw [indentedList, moreText, ← ih]
      simp only [String.toList_append, List.append_assoc, Layout.turn, textAt]
      rfl

theorem textAt_group (layout : Layout) (depth : Nat) (b : Bracket) (os : List Outline) :
    (group b os).textAt layout depth = b.opening.toList ++ membersText layout depth b os := by
  cases os with
  | nil =>
      cases layout with
      | oneLine =>
          simp [textAt, compact, compactList, commaSeparated, membersText, Layout.nothing]
      | indented => simp only [textAt, indented, String.toList_append, membersText, Layout.nothing]
  | cons o os =>
      cases layout with
      | oneLine =>
          rw [membersText, ← toList_moreSeparated_compactList]
          simp only [textAt, compact, compactList, commaSeparated_cons, String.toList_append,
            List.append_assoc, Layout.lead]
      | indented =>
          rw [membersText, ← toList_indentedList]
          simp only [textAt, indented, indentedList, String.toList_append, List.append_assoc,
            Layout.lead]
          rfl

/-! Telling outlines. -/

/-- Two outlines have the same text in a layout, whatever follows them, only where something holds,
and then the same follows. -/
def Tells (o o' : Outline) (fact : Prop) : Prop :=
  ∀ ⦃layout : Layout⦄ ⦃depth : Nat⦄ ⦃rest more : List Char⦄,
    o.textAt layout depth ++ rest = o'.textAt layout depth ++ more → fact ∧ rest = more

theorem Tells.imp {o o' : Outline} {fact other : Prop} (h : Tells o o' fact)
    (himp : fact → other) : Tells o o' other :=
  fun _ _ _ _ heq => (h heq).imp_left himp

theorem tells_leaf {α : Type} {write : α → String}
    (h : SelfDelimiting fun a => (write a).toList) (a b : α) :
    Tells (leaf (write a)) (leaf (write b)) (a = b) := by
  intro layout depth rest more heq
  rw [textAt_leaf, textAt_leaf] at heq
  exact h heq

theorem tells_words {word other : String} (hword : word.toList <+: other.toList → word = other)
    (hother : other.toList <+: word.toList → other = word) :
    Tells (leaf word) (leaf other) (word = other) := by
  intro layout depth rest more heq
  rw [textAt_leaf, textAt_leaf] at heq
  obtain ⟨htext, hrest⟩ := append_inj_of_isPrefix (fun h => congrArg String.toList (hword h))
    (fun h => congrArg String.toList (hother h)) heq
  exact ⟨String.toList_inj.mp htext, hrest⟩

theorem Tells.field {o o' : Outline} {fact : Prop} (h : Tells o o' fact) (name : String) :
    Tells (field name o) (field name o') fact := by
  intro layout depth rest more heq
  rw [textAt_field, textAt_field, List.append_assoc, List.append_assoc] at heq
  have hvalue := List.append_cancel_left heq
  exact h (List.tail_eq_of_cons_eq (List.tail_eq_of_cons_eq hvalue))

inductive TellEach : List Outline → List Outline → Prop → Prop
  | nil : TellEach [] [] True
  | cons {o o' : Outline} {os os' : List Outline} {fact facts : Prop} (h : Tells o o' fact)
      (hmore : TellEach os os' facts) : TellEach (o :: os) (o' :: os') (fact ∧ facts)

variable {layout : Layout} {depth : Nat} {b b' : Bracket} {os os' : List Outline} {facts : Prop}
  {rest more : List Char}

theorem TellEach.moreText (h : TellEach os os' facts)
    (heq : moreText layout depth b os ++ rest = moreText layout depth b os' ++ more) :
    facts ∧ rest = more := by
  induction h with
  | nil => exact ⟨trivial, List.append_cancel_left heq⟩
  | cons h _ ih =>
      simp only [Outline.moreText, List.append_assoc] at heq
      obtain ⟨hfact, htail⟩ := h (List.append_cancel_left heq)
      obtain ⟨hfacts, hrest⟩ := ih htail
      exact ⟨⟨hfact, hfacts⟩, hrest⟩

theorem TellEach.membersText (h : TellEach os os' facts)
    (heq : membersText layout depth b os ++ rest = membersText layout depth b os' ++ more) :
    facts ∧ rest = more := by
  cases h with
  | nil => exact ⟨trivial, List.append_cancel_left heq⟩
  | cons h hmore =>
      simp only [Outline.membersText, List.append_assoc] at heq
      obtain ⟨hfact, htail⟩ := h (List.append_cancel_left heq)
      obtain ⟨hfacts, hrest⟩ := hmore.moreText htail
      exact ⟨⟨hfact, hfacts⟩, hrest⟩

theorem TellEach.group (h : TellEach os os' facts) (b : Bracket) :
    Tells (group b os) (group b os') facts := by
  intro layout depth rest more heq
  rw [textAt_group, textAt_group, List.append_assoc, List.append_assoc] at heq
  exact h.membersText (List.append_cancel_left heq)

/-! Groups with a name. -/

def IsName (name : String) : Prop :=
  ∀ c ∈ name.toList, c.isAlpha

instance : DecidablePred IsName :=
  fun name => decidable_of_iff (name.toList.all Char.isAlpha) List.all_eq_true

inductive Named : Bracket → Prop
  | record {name : String} (h : IsName name) : Named (.record name)
  | tuple {name : String} (h : IsName name) : Named (.tuple name)

theorem toList_opening_record (name : String) :
    (Bracket.record name).opening.toList = name.toList ++ [' ', '\x7b'] :=
  String.toList_append

theorem toList_opening_tuple (name : String) :
    (Bracket.tuple name).opening.toList = name.toList ++ ['('] :=
  String.toList_append

theorem IsName.opening_inj {name name' : String} {cs cs' : List Char} {c c' : Char}
    (hname : IsName name) (hname' : IsName name') (hc : ¬ c.isAlpha) (hc' : ¬ c'.isAlpha)
    (h : name.toList ++ c :: cs ++ rest = name'.toList ++ c' :: cs' ++ more) :
    name = name' ∧ c :: cs ++ rest = c' :: cs' ++ more := by
  rw [List.append_assoc, List.append_assoc] at h
  obtain ⟨htext, hrest⟩ := span_inj hname hname' hc hc' h
  exact ⟨String.toList_inj.mp htext, hrest⟩

/-- A name ends where the bracket after it begins, so both are known. -/
theorem Named.opening_inj (hb : Named b) (hb' : Named b')
    (h : b.opening.toList ++ rest = b'.opening.toList ++ more) : b = b' ∧ rest = more := by
  have hblank : ¬ ' '.isAlpha := by decide
  have hparen : ¬ '('.isAlpha := by decide
  cases hb with
  | record hname =>
      rw [toList_opening_record] at h
      cases hb' with
      | record hname' =>
          rw [toList_opening_record] at h
          obtain ⟨rfl, hrest⟩ := hname.opening_inj hname' hblank hblank h
          exact ⟨rfl, List.append_cancel_left hrest⟩
      | tuple hname' =>
          rw [toList_opening_tuple] at h
          obtain ⟨_, hrest⟩ := hname.opening_inj hname' hblank hparen h
          exact absurd (List.head_eq_of_cons_eq hrest) (by decide)
  | tuple hname =>
      rw [toList_opening_tuple] at h
      cases hb' with
      | record hname' =>
          rw [toList_opening_record] at h
          obtain ⟨_, hrest⟩ := hname.opening_inj hname' hparen hblank h
          exact absurd (List.head_eq_of_cons_eq hrest) (by decide)
      | tuple hname' =>
          rw [toList_opening_tuple] at h
          obtain ⟨rfl, hrest⟩ := hname.opening_inj hname' hparen hparen h
          exact ⟨rfl, List.append_cancel_left hrest⟩

theorem tells_of_bracket_ne (hb : Named b) (hb' : Named b') (h : b ≠ b') (fact : Prop) :
    Tells (group b os) (group b' os') fact := by
  intro layout depth rest more heq
  rw [textAt_group, textAt_group, List.append_assoc, List.append_assoc] at heq
  exact absurd (hb.opening_inj hb' heq).1 h

/-! Lists. -/

/-- An outline that does not begin as a list ends. -/
def Opens (o : Outline) : Prop :=
  ∀ ⦃layout : Layout⦄ ⦃depth : Nat⦄ ⦃rest more : List Char⦄,
    o.textAt layout depth ++ rest ≠ ']' :: more

theorem IsName.append_ne {name : String} (h : IsName name) {c : Char} (hc : c ≠ ']')
    (cs : List Char) : name.toList ++ c :: cs ≠ ']' :: more := by
  intro heq
  cases htext : name.toList with
  | nil =>
      rw [htext] at heq
      exact hc (List.head_eq_of_cons_eq heq)
  | cons x text =>
      rw [htext] at heq
      have hx := h x (htext ▸ List.mem_cons_self)
      obtain rfl : x = ']' := List.head_eq_of_cons_eq heq
      exact absurd hx (by decide)

theorem Named.opens (h : Named b) (os : List Outline) : Opens (group b os) := by
  intro layout depth rest more heq
  rw [textAt_group, List.append_assoc] at heq
  cases h with
  | record hname =>
      rw [toList_opening_record, List.append_assoc] at heq
      exact hname.append_ne (by decide) _ heq
  | tuple hname =>
      rw [toList_opening_tuple, List.append_assoc] at heq
      exact hname.append_ne (by decide) _ heq

theorem indent_succ (depth : Nat) :
    (indent (depth + 1)).toList = (indent depth).toList ++ List.replicate 4 ' ' := by
  rw [indent, indent, String.toList_ofList, String.toList_ofList, Nat.mul_succ,
    List.replicate_append_replicate]

/-- After a member a list either goes on or ends. -/
theorem turn_ne_last (layout : Layout) (depth : Nat) (rest more : List Char) :
    layout.turn depth ++ rest ≠ layout.last depth .list ++ more := by
  intro heq
  cases layout with
  | oneLine => exact absurd (List.head_eq_of_cons_eq heq) (by decide)
  | indented =>
      simp only [Layout.turn, Layout.last, indent_succ, List.cons_append, List.append_assoc,
        List.cons.injEq, true_and] at heq
      exact absurd (List.head_eq_of_cons_eq (List.append_cancel_left heq)) (by decide)

/-- A list with members does not end at once. -/
theorem lead_ne_nothing {o : Outline} (h : Opens o) (layout : Layout) (depth : Nat)
    (rest more : List Char) :
    layout.lead depth .list ++ (o.textAt layout (depth + 1) ++ rest) ≠
      layout.nothing .list ++ more := by
  cases layout with
  | oneLine => exact @h .oneLine _ rest more
  | indented => exact fun heq => absurd (List.head_eq_of_cons_eq heq) (by decide)

section List

variable {α : Type} {write : α → Outline} {as as' : List α}

theorem map_moreText_inj (h : ∀ a ∈ as, ∀ a', Tells (write a) (write a') (a = a'))
    (heq : moreText layout depth .list (as.map write) ++ rest =
      moreText layout depth .list (as'.map write) ++ more) :
    as = as' ∧ rest = more := by
  induction as generalizing as' with
  | nil =>
      cases as' with
      | nil => exact ⟨rfl, List.append_cancel_left heq⟩
      | cons a' as' =>
          simp only [List.map_nil, List.map_cons, moreText, List.append_assoc] at heq
          exact absurd heq.symm (turn_ne_last _ _ _ _)
  | cons a as ih =>
      obtain ⟨ha, has⟩ := List.forall_mem_cons.mp h
      cases as' with
      | nil =>
          simp only [List.map_nil, List.map_cons, moreText, List.append_assoc] at heq
          exact absurd heq (turn_ne_last _ _ _ _)
      | cons a' as' =>
          simp only [List.map_cons, moreText, List.append_assoc] at heq
          obtain ⟨rfl, htail⟩ := ha a' (List.append_cancel_left heq)
          obtain ⟨rfl, hrest⟩ := ih has htail
          exact ⟨rfl, hrest⟩

theorem map_membersText_inj (hopens : ∀ a, Opens (write a))
    (h : ∀ a ∈ as, ∀ a', Tells (write a) (write a') (a = a'))
    (heq : membersText layout depth .list (as.map write) ++ rest =
      membersText layout depth .list (as'.map write) ++ more) :
    as = as' ∧ rest = more := by
  cases as with
  | nil =>
      cases as' with
      | nil => exact ⟨rfl, List.append_cancel_left heq⟩
      | cons a' as' =>
          simp only [List.map_nil, List.map_cons, membersText, List.append_assoc] at heq
          exact absurd heq.symm (lead_ne_nothing (hopens a') _ _ _ _)
  | cons a as =>
      obtain ⟨ha, has⟩ := List.forall_mem_cons.mp h
      cases as' with
      | nil =>
          simp only [List.map_nil, List.map_cons, membersText, List.append_assoc] at heq
          exact absurd heq (lead_ne_nothing (hopens a) _ _ _ _)
      | cons a' as' =>
          simp only [List.map_cons, membersText, List.append_assoc] at heq
          obtain ⟨rfl, htail⟩ := ha a' (List.append_cancel_left heq)
          obtain ⟨rfl, hrest⟩ := map_moreText_inj has htail
          exact ⟨rfl, hrest⟩

theorem tells_list (hopens : ∀ a, Opens (write a))
    (h : ∀ a ∈ as, ∀ a', Tells (write a) (write a') (a = a')) (as' : List α) :
    Tells (group .list (as.map write)) (group .list (as'.map write)) (as = as') := by
  intro layout depth rest more heq
  rw [textAt_group, textAt_group, List.append_assoc, List.append_assoc] at heq
  exact map_membersText_inj hopens h (List.append_cancel_left heq)

end List

end ExprFront.Outline
