import ExprFront.Proofs.Grammar.Sound

/-!
Phrases as equations: a loop is its first round and then the loop again, and a phrase of phrases
may be bracketed either way.
-/

namespace ExprFront

namespace Phrase

variable {α β γ : Type}

theorem eq_of_read_eq {p q : Phrase α} (h : p.read = q.read) : p = q := by
  cases p
  cases h
  rfl

theorem read_map_id (p : Phrase α) : (id <$> p).read = p.read := by
  funext us
  change (p >>= pure).read us = _
  rw [read_bind]
  cases p.read us with
  | error e => rfl
  | ok r => rfl

theorem read_bind_bind (p : Phrase α) (f : α → Phrase β) (g : β → Phrase γ) :
    (p >>= f >>= g).read = (p >>= fun a => f a >>= g).read := by
  funext us
  simp only [read_bind]
  cases p.read us with
  | error e => rfl
  | ok r => rfl

instance : LawfulMonad Phrase :=
  LawfulMonad.mk' Phrase (fun p => eq_of_read_eq (read_map_id p)) (fun _ _ => rfl)
    (fun p f g => eq_of_read_eq (read_bind_bind p f g))

theorem iterate_eq (round : α → Phrase (Option α)) (advances : ∀ a, (round a).Advances) (a : α) :
    iterate round advances a = round a >>= fun b? =>
      match b? with
      | none => pure a
      | some b => iterate round advances b := by
  apply eq_of_read_eq
  funext us
  rw [read_bind]
  change readRounds round advances a us = _
  rw [readRounds]
  cases (round a).read us with
  | error e => rfl
  | ok r =>
      obtain ⟨b?, rest⟩ := r
      cases b? with
      | none => rfl
      | some b => rfl

/-- A loop whose rounds begin with a sign. -/
theorem iterate_after?_eq (sign? : Token → Option γ) (next : α → Phrase β)
    (grown : α → γ → β → α)
    (advances : ∀ a, (after? sign? fun c => grown a c <$> next a).Advances) (a : α) :
    iterate (fun a => after? sign? fun c => grown a c <$> next a) advances a =
      take? sign? >>= fun c? =>
        c?.elim (pure a) fun c => next a >>= fun b =>
          iterate (fun a => after? sign? fun c => grown a c <$> next a) advances
            (grown a c b) := by
  conv => lhs; rw [iterate_eq, after?, bind_assoc]
  congr 1
  funext c?
  cases c? with
  | none => rfl
  | some c => simp only [bind_assoc, bind_map_left, pure_bind, Option.elim_some]

/-- A loop whose rounds each read an item, until they are finished. -/
theorem iterate_another_eq (finished : Phrase Bool) (item : Phrase α)
    (advances : ∀ done, (another finished ((· :: done) <$> item)).Advances) (done : List α) :
    iterate (fun done => another finished ((· :: done) <$> item)) advances done =
      finished >>= fun isFinished =>
        if isFinished then pure done
        else item >>= fun a =>
          iterate (fun done => another finished ((· :: done) <$> item)) advances (a :: done) := by
  conv => lhs; rw [iterate_eq, another, bind_assoc]
  congr 1
  funext isFinished
  cases isFinished with
  | true => rfl
  | false => simp only [Bool.false_eq_true, if_false, bind_assoc, bind_map_left, pure_bind]

theorem itemsFrom_eq (item : List α → Phrase α) (done : List α) :
    itemsFrom item done =
      take? (fun t => if t.is .punctuation "," then some () else none) >>= fun comma? =>
        comma?.elim (pure done) fun _ => item done >>= fun a => itemsFrom item (a :: done) :=
  iterate_after?_eq _ item (fun done _ a => a :: done) (nextItem_advances item) done

end Phrase

theorem Expr.joinFrom_eq (ops : List BinaryOp) (operand : Phrase Expr) (left : Expr) :
    joinFrom ops operand left = Phrase.take? (operation? ops) >>= fun op? =>
      op?.elim (pure left) fun op => operand >>= fun right =>
        joinFrom ops operand (binary op left right) :=
  Phrase.iterate_after?_eq _ (fun _ => operand) (fun left op right => binary op left right)
    (nextOperation_advances ops operand) left

/-- An assignment from its target on, also where none begins. -/
def Statement.assigned (levels : Nat) : Phrase Statement := do
  let target ← Phrase.identifier (.described "assignment target")
  Phrase.expect .operator "="
  assignment target <$> Expr.phrase levels

theorem Statement.target?_of_sign {t u : Token} {us : List Token} (ht : t.kind = .identifier)
    (hu : u.is .operator "=") : target? (t :: u :: us) = some t.text :=
  if_pos ⟨ht, hu⟩

theorem Statement.target?_drop_eq_none {ts : List Token} {i : Nat}
    (h : ¬(ts[i]?.any (·.kind = .identifier) ∧ ts[i + 1]?.any (·.is .operator "="))) :
    target? (ts.drop i) = none := by
  rw [target?_eq_none_iff]
  rintro ⟨t, u, us, hdrop, hkind, hsign⟩
  have ht : ts[i]? = some t := by
    rw [← List.head?_drop, hdrop, List.head?_cons]
  have hu : ts[i + 1]? = some u := by
    rw [← List.getElem?_drop, hdrop, List.getElem?_cons_succ, List.getElem?_cons_zero]
  exact h (by simp [ht, hu, hkind, hsign])

theorem Statement.read_assigned {t u : Token} {us : List Token} (ht : t.kind = .identifier)
    (hu : u.is .operator "=") (levels : Nat) :
    (assigned levels).read (t :: u :: us) =
      (assignmentPhrase t.text levels).read (t :: u :: us) := by
  rw [Phrase.read_eq_andThen, Phrase.read_eq_andThen, assigned, assignmentPhrase]
  simp only [Phrase.andThen_bind, Phrase.andThen_identifier_cons, ht, if_true,
    Phrase.andThen_expect_cons, hu, Phrase.andThen_skip, List.drop_succ_cons, List.drop_zero]

end ExprFront
