import ExprFront.Proofs.Machine.Errors
import ExprFront.Proofs.Machine.SpelledStatements

/-!
Token lists one after the other. A run on the first list comes to a state, and goes on from there on
the second. The statements that are complete in that state have no say in the rest of the run, so
they stand at the front of whatever it reads; and where the second list cannot go on with the
statement under way, it is read as it is on its own.
-/

namespace ExprFront

namespace Machine

variable {limit : Nat} {done : List Statement} {frames : List Frame} {owner : Owner}

/-! Complete statements. -/

/-- A statement is under way. -/
def Stage.underWay : Stage → Bool
  | .start => false
  | _ => true

/-- An outcome as it depends on the statements that are complete: some are added to them, or there
is an error, whatever they are. After a token a statement is under way. -/
def Adds (t? : Option Token) (outcome : List Statement → Except ParseError State) : Prop :=
  (∃ x, ∀ done, outcome done = .error x) ∨
    ∃ more stage, (∀ done, outcome done = .ok ⟨more ++ done, stage⟩) ∧ (t?.isSome → stage.underWay)

theorem adds_error (t? : Option Token) (x : ParseError) : Adds t? fun _ => .error x :=
  .inl ⟨x, fun _ => rfl⟩

theorem adds_stage (t? : Option Token) {stage : Stage} (h : stage.underWay) :
    Adds t? fun done => .ok ⟨done, stage⟩ :=
  .inr ⟨[], stage, fun _ => rfl, fun _ => h⟩

theorem Adds.cons {t? : Option Token} {outcome : List Statement → Except ParseError State}
    (h : Adds t? outcome) (s : Statement) : Adds t? fun done => outcome (s :: done) := by
  rcases h with ⟨x, hx⟩ | ⟨more, stage, hmore, hstage⟩
  · exact .inl ⟨x, fun done => hx (s :: done)⟩
  · refine .inr ⟨more ++ [s], stage, ?_, hstage⟩
    intro done
    rw [List.append_assoc, List.singleton_append]
    exact hmore (s :: done)

theorem adds_enter (limit : Nat) (opener : Token) (frames : List Frame) (t? : Option Token)
    {stage : Stage} (h : stage.underWay) :
    Adds t? fun done => enter limit done opener frames stage := by
  simp only [enter]
  split
  · exact adds_stage t? h
  · exact adds_error t? _

theorem adds_onFactor (limit : Nat) (frames : List Frame) (owner : Owner) (t? : Option Token) :
    Adds t? fun done => onFactor limit done frames owner t? := by
  cases t? with
  | none => exact adds_error none _
  | some t =>
      simp only [onFactor]
      cases t.kind with
      | integer => exact adds_stage t rfl
      | float => exact adds_stage t rfl
      | identifier => exact adds_stage t rfl
      | operator =>
          cases UnaryOp.ofSymbol? t.text with
          | none => exact adds_error t _
          | some op => exact adds_enter limit t frames t rfl
      | punctuation =>
          by_cases htext : t.text = "("
          · simp only [htext, if_true]
            exact adds_enter limit t frames t rfl
          · simp only [htext, if_false]
            exact adds_error t _
      | keyword => exact adds_error t _
      | string => exact adds_error t _

theorem adds_onStart (limit : Nat) (t? : Option Token) :
    Adds t? fun done => onStart limit done t? := by
  cases t? with
  | none => exact .inr ⟨[], .start, fun _ => rfl, fun hsome => Bool.noConfusion hsome⟩
  | some t =>
      simp only [onStart]
      split
      · exact adds_stage t rfl
      · split
        · exact adds_stage t rfl
        · exact adds_onFactor limit [] .expression t

theorem adds_onBody (limit : Nat) (name : String) (params : List String) (body : List Statement)
    (t? : Option Token) : Adds t? fun done => onBody limit done name params body t? := by
  simp only [onBody]
  split
  · exact adds_stage t? rfl
  · exact (adds_onStart limit t?).cons _

theorem adds_onOwner (limit : Nat) (e : Expr) (owner : Owner) (t? : Option Token) :
    Adds t? fun done => onValue limit done e [] owner t? := by
  cases owner with
  | expression => exact (adds_onStart limit t?).cons (.expression e)
  | assignment target => exact (adds_onStart limit t?).cons (.assignment target e)
  | returning name params body => exact adds_onBody limit name params (.returning e :: body) t?

theorem adds_onValue (limit : Nat) (e : Expr) (frames : List Frame) (owner : Owner)
    (t? : Option Token) : Adds t? fun done => onValue limit done e frames owner t? := by
  cases frames with
  | nil => exact adds_onOwner limit e owner t?
  | cons frame frames =>
      cases frame with
      | left operand op => exact adds_onOwner limit e owner t?
      | sign op => exact adds_onOwner limit e owner t?
      | parens =>
          simp only [onValue]
          split
          · exact adds_stage t? rfl
          · exact adds_error t? _
      | argument function earlier =>
          simp only [onValue]
          split
          · exact adds_stage t? rfl
          · split
            · exact adds_stage t? rfl
            · exact adds_error t? _

theorem adds_onOperand (limit : Nat) (e : Expr) (frames : List Frame) (owner : Owner)
    (t? : Option Token) : Adds t? fun done => onOperand limit done e frames owner t? := by
  simp only [onOperand]
  cases t?.bind (Expr.operation? BinaryOp.products) with
  | some op => exact adds_stage t? rfl
  | none =>
      cases t?.bind (Expr.operation? BinaryOp.sums) with
      | some op => exact adds_stage t? rfl
      | none => exact adds_onValue limit _ _ owner t?

theorem adds_onName (limit : Nat) (t : Token) (frames : List Frame) (owner : Owner)
    (t? : Option Token) : Adds t? fun done => onName limit done t frames owner t? := by
  simp only [onName]
  split
  · exact adds_enter limit t frames t? rfl
  · exact adds_onOperand limit (.var t.text) frames owner t?

theorem adds_onParameter (name : String) (params : List String) (t? : Option Token) :
    Adds t? fun done => onParameter done name params t? := by
  cases t? with
  | none => exact adds_error none _
  | some t =>
      simp only [onParameter]
      split
      · split
        · exact adds_error t _
        · exact adds_stage t rfl
      · exact adds_error t _

/-- A step does the same to the statement under way whatever is complete before it. -/
theorem adds_step (limit : Nat) (stage : Stage) (t? : Option Token) :
    Adds t? fun done => step limit ⟨done, stage⟩ t? := by
  cases stage with
  | start => exact adds_onStart limit t?
  | named t =>
      simp only [step_named]
      split
      · exact adds_stage t? rfl
      · exact adds_onName limit t [] .expression t?
  | factor frames owner => exact adds_onFactor limit frames owner t?
  | name t frames owner => exact adds_onName limit t frames owner t?
  | opened function frames owner =>
      simp only [step_opened]
      split
      · exact adds_stage t? rfl
      · exact adds_onFactor limit (.argument function [] :: frames) owner t?
  | operand e frames owner => exact adds_onOperand limit e frames owner t?
  | functionName =>
      cases t? with
      | none => exact adds_error none _
      | some t =>
          simp only [step_functionName_some]
          split
          · exact adds_stage t rfl
          · exact adds_error t _
  | openParameters name =>
      simp only [step_openParameters]
      split
      · exact adds_stage t? rfl
      · exact adds_error t? _
  | firstParameter name =>
      simp only [step_firstParameter]
      split
      · exact adds_stage t? rfl
      · exact adds_onParameter name [] t?
  | parameter name params => exact adds_onParameter name params t?
  | moreParameters name params =>
      simp only [step_moreParameters]
      split
      · exact adds_stage t? rfl
      · split
        · exact adds_stage t? rfl
        · exact adds_error t? _
  | colon name params =>
      simp only [step_colon]
      split
      · exact adds_stage t? rfl
      · exact adds_error t? _
  | body name params body => exact adds_onBody limit name params body t?

theorem run_nil_of_ok {s s' : State} (h : step limit s none = .ok s') :
    run limit s [] = .ok ⟨s'.done.reverse⟩ := by
  rw [run, h]
  rfl

theorem run_nil_of_error {s : State} {x : ParseError} (h : step limit s none = .error x) :
    run limit s [] = .error x := by
  rw [run, h]
  rfl

/-- What is complete comes before all that is read from there on, and has no other part in it. -/
theorem run_eq_after (limit : Nat) (done : List Statement) (stage : Stage) (ts : List Token) :
    run limit ⟨done, stage⟩ ts =
      (run limit ⟨[], stage⟩ ts).map fun p => ⟨done.reverse ++ p.statements⟩ := by
  induction ts generalizing done stage with
  | nil =>
      rcases adds_step limit stage none with ⟨x, hx⟩ | ⟨more, next, hmore, _⟩
      · rw [run_nil_of_error (hx done), run_nil_of_error (hx [])]
        rfl
      · rw [run_nil_of_ok (hmore done), run_nil_of_ok (hmore []), List.append_nil,
          List.reverse_append]
        rfl
  | cons t ts ih =>
      rcases adds_step limit stage (some t) with ⟨x, hx⟩ | ⟨more, next, hmore, _⟩
      · rw [run_cons_of_error (hx done), run_cons_of_error (hx [])]
        rfl
      · rw [run_cons_of_ok (hmore done), run_cons_of_ok (hmore []), ih, ih (more ++ [])]
        cases run limit ⟨[], next⟩ ts with
        | error x => rfl
        | ok p => simp [Except.map]

/-! Runs in two parts. -/

/-- The state that tokens lead to. -/
def reach (limit : Nat) (s : State) : List Token → Except ParseError State
  | [] => .ok s
  | t :: ts => (step limit s (some t)).bind fun s => reach limit s ts

theorem run_append (limit : Nat) (s : State) (ts us : List Token) :
    run limit s (ts ++ us) = (reach limit s ts).bind fun s => run limit s us := by
  induction ts generalizing s with
  | nil => rfl
  | cons t ts ih =>
      rw [List.cons_append, run, reach]
      cases step limit s (some t) with
      | error x => rfl
      | ok s' => exact ih s'

/-- Tokens that can be the whole input lead to a state in which the input may end. -/
theorem exists_reach {s : State} {ts : List Token} {p : Program} (h : run limit s ts = .ok p) :
    ∃ s', reach limit s ts = .ok s' ∧ run limit s' [] = .ok p := by
  rw [← List.append_nil ts, run_append] at h
  cases hreach : reach limit s ts with
  | error x =>
      rw [hreach] at h
      cases h
  | ok s' =>
      rw [hreach] at h
      exact ⟨s', rfl, h⟩

/-- Where the input may end within a value, the value is complete, and so is its statement for
whatever follows that does not go on with it. -/
theorem exists_value_of_end {e : Expr} {p : Program}
    (h : run limit ⟨done, .operand e frames owner⟩ [] = .ok p) :
    ∃ value, ∀ us, Follows us → run limit ⟨done, .operand e frames owner⟩ us =
      run limit ⟨owner.finish value :: done, .start⟩ us := by
  induction frames generalizing e with
  | nil => exact ⟨e, fun us hus => run_operand_finish hus e⟩
  | cons frame frames ih =>
      cases frame with
      | left operand op =>
          have hjoin {us : List Token} (hend : Ended us) :
              run limit ⟨done, .operand e (.left operand op :: frames) owner⟩ us =
                run limit ⟨done, .operand (.binary op operand e) frames owner⟩ us :=
            run_congr (step_operand_left_of_not_product hend.1 op operand)
          rw [hjoin Follows.nil.ended] at h
          obtain ⟨value, hvalue⟩ := ih h
          exact ⟨value, fun us hus => (hjoin hus.ended).trans (hvalue us hus)⟩
      | sign op =>
          simp only [run_operand_sign] at h ⊢
          exact ih h
      | parens => cases h
      | argument function earlier => cases h

/-- Where the input may end, the statement under way is complete, and is gone on with by nothing
that begins another. -/
theorem exists_statement_of_end {s : State} {p : Program} (h : run limit s [] = .ok p)
    (hstage : s.stage.underWay) :
    ∃ x, ∀ us, Follows us → NotOpen us → run limit s us = run limit ⟨x :: s.done, .start⟩ us := by
  obtain ⟨done, stage⟩ := s
  cases stage with
  | start => cases hstage
  | named t =>
      refine ⟨.expression (.var t.text), ?_⟩
      intro us hus hopen
      have hnamed := (step_named limit done t us.head?).trans (if_neg hus.notEquals)
      rw [run_congr hnamed, run_name_of_notOpen hopen]
      exact run_operand_finish hus (.var t.text)
  | name t frames owner =>
      have hnil : NotOpen [] := nofun
      rw [run_name_of_notOpen hnil] at h
      obtain ⟨value, hvalue⟩ := exists_value_of_end h
      refine ⟨owner.finish value, ?_⟩
      intro us hus hopen
      rw [run_name_of_notOpen hopen]
      exact hvalue us hus
  | operand e frames owner =>
      obtain ⟨value, hvalue⟩ := exists_value_of_end h
      exact ⟨owner.finish value, fun us hus _ => hvalue us hus⟩
  | body name params body =>
      refine ⟨.definition name params body.reverse, ?_⟩
      intro us hus _
      exact run_congr ((step_body limit done name params body us.head?).trans
        (if_neg hus.notReturn))
  | _ => cases h

/-- A statement under way is part of what a run reads. -/
theorem run_ne_nil {s : State} (hstage : s.stage.underWay) {ts : List Token} {p : Program}
    (h : run limit s ts = .ok p) : p.statements ≠ [] := by
  induction ts generalizing s with
  | nil =>
      obtain ⟨x, hx⟩ := exists_statement_of_end h hstage
      rw [hx [] .nil nofun] at h
      cases h
      simp
  | cons t ts ih =>
      rcases adds_step limit s.stage (some t) with ⟨x, hx⟩ | ⟨more, next, hmore, hnext⟩
      · rw [run_cons_of_error (hx s.done)] at h
        cases h
      · rw [run_cons_of_ok (hmore s.done)] at h
        exact ih (hnext rfl) h

/-- A run keeps what is complete and adds to it, at least the statement under way. -/
theorem exists_more {s : State} {ts : List Token} {p : Program} (h : run limit s ts = .ok p) :
    ∃ more, p.statements = s.done.reverse ++ more ∧ (s.stage.underWay → more ≠ []) := by
  have hrun := run_eq_after limit s.done s.stage ts
  cases hmore : run limit ⟨[], s.stage⟩ ts with
  | error x =>
      rw [hmore] at hrun
      cases hrun.symm.trans h
  | ok more =>
      rw [hmore] at hrun
      cases hrun.symm.trans h
      exact ⟨more.statements, rfl, fun hstage => run_ne_nil (s := ⟨[], s.stage⟩) hstage hmore⟩

/-- Where the input may end, at most one statement is added to those that are complete. -/
theorem exists_last_of_end {s : State} {p : Program} (h : run limit s [] = .ok p) :
    ∃ last : Option Statement, last.isSome = s.stage.underWay ∧
      p.statements = s.done.reverse ++ last.toList ∧
      ∀ us, Follows us → NotOpen us →
        run limit s us = run limit ⟨last.toList ++ s.done, .start⟩ us := by
  cases hstage : s.stage.underWay with
  | true =>
      obtain ⟨x, hx⟩ := exists_statement_of_end h hstage
      rw [hx [] .nil nofun] at h
      cases h
      exact ⟨some x, rfl, List.reverse_cons, hx⟩
  | false =>
      obtain ⟨done, stage⟩ := s
      cases stage with
      | start =>
          cases h
          exact ⟨none, rfl, (List.append_nil _).symm, fun us _ _ => rfl⟩
      | _ => cases hstage

end Machine

/-- A token that can go on with a statement that is complete without it. -/
def Token.Continues (t : Token) : Prop :=
  (t.kind = .operator ∧ t.text ∈ ["+", "-", "*", "/", "="]) ∨ t.is .punctuation "(" ∨
    t.is .keyword "return"

theorem Machine.follows_of_not_continues {us : List Token}
    (h : ∀ u ∈ us.head?, ¬ u.Continues) : Follows us ∧ NotOpen us := by
  cases us with
  | nil => exact ⟨.nil, nofun⟩
  | cons u us =>
      have hu := h u rfl
      have hoperation (ops : List BinaryOp) : Expr.operation? ops u = none := by
        rw [Expr.operation?_eq_none_iff]
        rintro ⟨op, _, hkind, htext⟩
        refine hu (.inl ⟨hkind, ?_⟩)
        rw [htext]
        cases op <;> decide
      refine ⟨⟨⟨hoperation _, hoperation _⟩, ?_, ?_⟩, ?_⟩
      · exact fun hreturn => hu (.inr (.inr hreturn))
      · intro hequals
        obtain ⟨hkind, htext⟩ := Token.is_iff.mp hequals
        refine hu (.inl ⟨hkind, ?_⟩)
        rw [htext]
        decide
      · exact fun hopen => hu (.inr (.inl hopen))

namespace Program

open Machine

/-- Two programs one after the other are read as they are each on its own, unless the second
begins with a token that can go on with the last statement of the first. So is an error in the
second. -/
theorem ofTokens_append_of_seam {ts us : List Token} {p : Program} (hts : ofTokens ts = .ok p)
    (hseam : ∀ u ∈ us.head?, ¬ u.Continues) :
    ofTokens (ts ++ us) = (ofTokens us).map fun q => ⟨p.statements ++ q.statements⟩ := by
  simp only [ofTokens, ofTokensWithin_eq_run] at hts ⊢
  obtain ⟨hfollows, hopen⟩ := follows_of_not_continues hseam
  obtain ⟨s, hreach, hend⟩ := exists_reach hts
  obtain ⟨last, _, hp, hlast⟩ := exists_last_of_end hend
  have hdone : (last.toList ++ s.done).reverse = p.statements := by
    rw [hp]
    cases last <;> simp
  rw [run_append, hreach, ← hdone, ← run_eq_after]
  exact hlast us hfollows hopen

/-- `def f(a): return a` and `f(1)`. -/
def identityDefinition : List Token :=
  [inserted .keyword "def", inserted .identifier "f", inserted .punctuation "(",
    inserted .identifier "a", inserted .punctuation ")", inserted .punctuation ":",
    inserted .keyword "return", inserted .identifier "a"]

def identityCall : List Token :=
  [inserted .identifier "f", inserted .punctuation "(", inserted .integer "1",
    inserted .punctuation ")"]

/-- The name that the definition ends in is not gone on with by the name that the call begins
with. -/
theorem ofTokens_append_of_seam_identity :
    let definition := Statement.definition "f" ["a"] [.returning (.var "a")]
    let call := Statement.expression (.call "f" [.number "1" false])
    ofTokens identityDefinition = .ok ⟨[definition]⟩ ∧
      (∀ u ∈ identityCall.head?, ¬ u.Continues) ∧
      ofTokens (identityDefinition ++ identityCall) = .ok ⟨[definition, call]⟩ := by
  intro definition call
  have hdefinition : ofTokens identityDefinition = .ok ⟨[definition]⟩ := by
    rw [ofTokens, ofTokensWithin_eq_run]
    rfl
  have hcall : ofTokens identityCall = .ok ⟨[call]⟩ := by
    rw [ofTokens, ofTokensWithin_eq_run]
    rfl
  have hseam : ∀ u ∈ identityCall.head?, ¬ u.Continues := by
    rintro _ ⟨⟩
    simp [Token.Continues, Token.is_iff, inserted]
  refine ⟨hdefinition, hseam, ?_⟩
  rw [ofTokens_append_of_seam hdefinition hseam, hcall]
  rfl

/-- Tokens after a program change none of its statements but the last, and take none away. -/
theorem ofTokens_append_keeps {ts us : List Token} {p q : Program} (hp : ofTokens ts = .ok p)
    (hq : ofTokens (ts ++ us) = .ok q) :
    p.statements.length ≤ q.statements.length ∧ p.statements.dropLast <+: q.statements := by
  simp only [ofTokens, ofTokensWithin_eq_run] at hp hq
  obtain ⟨s, hreach, hend⟩ := exists_reach hp
  obtain ⟨last, hstage, hp, _⟩ := exists_last_of_end hend
  rw [run_append, hreach] at hq
  obtain ⟨more, hq, hnext⟩ := exists_more hq
  rw [hp, hq]
  cases last with
  | none =>
      rw [Option.toList_none, List.append_nil, List.length_append]
      exact ⟨Nat.le_add_right _ _, (List.dropLast_prefix _).trans (List.prefix_append _ _)⟩
  | some x =>
      have hpos := List.length_pos_iff.mpr (hnext hstage.symm)
      rw [Option.toList_some, List.dropLast_concat, List.length_append, List.length_append]
      exact ⟨Nat.add_le_add_left hpos _, List.prefix_append _ _⟩

/-- In `def f(a): return a f` the last statement is a name, and `(1)` after it makes it a call. -/
theorem ofTokens_append_keeps_identity :
    let definition := Statement.definition "f" ["a"] [.returning (.var "a")]
    let name := identityDefinition ++ identityCall.take 1
    let p : Program := ⟨[definition, .expression (.var "f")]⟩
    let q : Program := ⟨[definition, .expression (.call "f" [.number "1" false])]⟩
    ofTokens name = .ok p ∧ ofTokens (name ++ identityCall.drop 1) = .ok q ∧
      p.statements.length ≤ q.statements.length ∧ p.statements.dropLast <+: q.statements := by
  intro definition name p q
  have hp : ofTokens name = .ok p := by
    rw [ofTokens, ofTokensWithin_eq_run]
    rfl
  have hq : ofTokens (name ++ identityCall.drop 1) = .ok q := by
    rw [ofTokens, ofTokensWithin_eq_run]
    rfl
  exact ⟨hp, hq, ofTokens_append_keeps hp hq⟩

end Program

end ExprFront
