import ExprFront.Proofs.Machine.Errors
import ExprFront.Proofs.Relabelling

/-!
The machine on other labels. It asks a token for its kind and for the texts of keywords and signs,
and a name only for whether it equals another, so a step from an exchanged state on an exchanged
token is the same step with its outcome exchanged.
-/

namespace ExprFront.Relabelling

open Machine

variable (m : Relabelling)

def frame : Frame → Frame
  | .left operand op => .left (m.expr operand) op
  | .sign op => .sign op
  | .parens => .parens
  | .argument function earlier => .argument (m.name function) (earlier.map m.expr)

def owner : Owner → Owner
  | .expression => .expression
  | .assignment target => .assignment (m.name target)
  | .returning name params body =>
      .returning (m.name name) (params.map m.name) (body.map m.statement)

def stage : Stage → Stage
  | .start => .start
  | .named t => .named (m.token t)
  | .factor frames owner => .factor (frames.map m.frame) (m.owner owner)
  | .name t frames owner => .name (m.token t) (frames.map m.frame) (m.owner owner)
  | .opened function frames owner =>
      .opened (m.name function) (frames.map m.frame) (m.owner owner)
  | .operand e frames owner => .operand (m.expr e) (frames.map m.frame) (m.owner owner)
  | .functionName => .functionName
  | .openParameters name => .openParameters (m.name name)
  | .firstParameter name => .firstParameter (m.name name)
  | .parameter name params => .parameter (m.name name) (params.map m.name)
  | .moreParameters name params => .moreParameters (m.name name) (params.map m.name)
  | .colon name params => .colon (m.name name) (params.map m.name)
  | .body name params body =>
      .body (m.name name) (params.map m.name) (body.map m.statement)

def state (s : State) : State :=
  ⟨s.done.map m.statement, m.stage s.stage⟩

theorem levels_map_frame (frames : List Frame) : levels (frames.map m.frame) = levels frames := by
  induction frames with
  | nil => rfl
  | cons frame frames ih =>
      rw [List.map_cons, levels, levels, ih]
      cases frame <;> rfl

theorem settle_map (ops : List BinaryOp) (e : Expr) (frames : List Frame) :
    settle ops (m.expr e) (frames.map m.frame) =
      (m.expr (settle ops e frames).1, (settle ops e frames).2.map m.frame) := by
  induction frames generalizing e with
  | nil => rfl
  | cons frame frames ih =>
      cases frame with
      | left operand op =>
          by_cases hmem : op ∈ ops
          · rw [List.map_cons, Relabelling.frame, settle_left_of_mem hmem, settle_left_of_mem hmem]
            exact ih (.binary op operand e)
          · rw [List.map_cons, Relabelling.frame, settle, settle, if_neg hmem, if_neg hmem]
            rfl
      | sign op => exact ih (.unary op e)
      | parens => rfl
      | argument function earlier => rfl

section

variable (limit : Nat) (done : List Statement)

theorem enter_map (opener : Token) (frames : List Frame) (stage : Stage) :
    enter limit (done.map m.statement) (m.token opener) (frames.map m.frame) (m.stage stage) =
      m.outcome m.state (enter limit done opener frames stage) := by
  rw [enter, enter, levels_map_frame]
  split <;> rfl

theorem onFactor_map (frames : List Frame) (owner : Owner) (t? : Option Token) :
    onFactor limit (done.map m.statement) (frames.map m.frame) (m.owner owner)
        (t?.map m.token) =
      m.outcome m.state (onFactor limit done frames owner t?) := by
  cases t? with
  | none => rfl
  | some t =>
      obtain ⟨kind, text, position⟩ := t
      cases kind with
      | integer => rfl
      | float => rfl
      | identifier => rfl
      | keyword => rfl
      | string => rfl
      | operator =>
          have htoken : m.token ⟨.operator, text, position⟩ =
              ⟨.operator, text, m.place position⟩ := rfl
          cases hop : UnaryOp.ofSymbol? text with
          | none =>
              simp only [Option.map_some, htoken, onFactor, hop]
              rfl
          | some op =>
              have henter := m.enter_map limit done ⟨.operator, text, position⟩ frames
                (.factor (.sign op :: frames) owner)
              simp only [Option.map_some, htoken, onFactor, hop]
              exact henter
      | punctuation =>
          by_cases htext : text = "("
          · subst htext
            exact m.enter_map limit done ⟨.punctuation, "(", position⟩ frames
              (.factor (.parens :: frames) owner)
          · simp only [onFactor, Option.map_some, token_kind]
            change (if text = "(" then _ else _) = _
            simp only [if_neg htext]
            rfl

theorem onStart_map (t? : Option Token) :
    onStart limit (done.map m.statement) (t?.map m.token) =
      m.outcome m.state (onStart limit done t?) := by
  cases t? with
  | none => rfl
  | some t =>
      have hdef : (m.token t).is .keyword "def" = t.is .keyword "def" :=
        m.token_is (fun _ => rfl) t "def"
      rw [Option.map_some, onStart, onStart, hdef, token_kind]
      split
      · rfl
      · split
        · rfl
        · exact m.onFactor_map limit done [] .expression (some t)

theorem onBody_map (name : String) (params : List String) (body : List Statement)
    (t? : Option Token) :
    onBody limit (done.map m.statement) (m.name name) (params.map m.name)
        (body.map m.statement) (t?.map m.token) =
      m.outcome m.state (onBody limit done name params body t?) := by
  have hreturn := m.any_keyword t? "return"
  rw [onBody, onBody, hreturn]
  split
  · rfl
  · have hbody : m.statement (.definition name params body.reverse) =
        .definition (m.name name) (params.map m.name) (body.map m.statement).reverse := by
      rw [statement, statements_eq_map, List.map_reverse]
    rw [← hbody]
    exact m.onStart_map limit (.definition name params body.reverse :: done) t?

theorem onOwner_map (e : Expr) (owner : Owner) (t? : Option Token) :
    onValue limit (done.map m.statement) (m.expr e) [] (m.owner owner) (t?.map m.token) =
      m.outcome m.state (onValue limit done e [] owner t?) := by
  cases owner with
  | expression => exact m.onStart_map limit (.expression e :: done) t?
  | assignment target => exact m.onStart_map limit (.assignment target e :: done) t?
  | returning name params body =>
      exact m.onBody_map limit done name params (.returning e :: body) t?

theorem onValue_map (e : Expr) (frames : List Frame) (owner : Owner) (t? : Option Token) :
    onValue limit (done.map m.statement) (m.expr e) (frames.map m.frame) (m.owner owner)
        (t?.map m.token) =
      m.outcome m.state (onValue limit done e frames owner t?) := by
  have hclose := m.any_punctuation t? ")"
  have hcomma := m.any_punctuation t? ","
  cases frames with
  | nil => exact m.onOwner_map limit done e owner t?
  | cons frame frames =>
      cases frame with
      | left operand op => exact m.onOwner_map limit done e owner t?
      | sign op => exact m.onOwner_map limit done e owner t?
      | parens =>
          rw [List.map_cons, Relabelling.frame, onValue, onValue, hclose]
          split <;> rfl
      | argument function earlier =>
          rw [List.map_cons, Relabelling.frame, onValue, onValue, hcomma, hclose]
          split
          · rfl
          · split
            · have hcall : m.expr (.call function (e :: earlier).reverse) =
                  .call (m.name function) (m.expr e :: earlier.map m.expr).reverse := by
                rw [expr, exprs_eq_map, List.map_reverse, List.map_cons]
              rw [← hcall]
              rfl
            · rfl

theorem onOperand_map (e : Expr) (frames : List Frame) (owner : Owner) (t? : Option Token) :
    onOperand limit (done.map m.statement) (m.expr e) (frames.map m.frame) (m.owner owner)
        (t?.map m.token) =
      m.outcome m.state (onOperand limit done e frames owner t?) := by
  rw [onOperand, onOperand, bind_operation?_token, bind_operation?_token, settle_map, settle_map]
  cases t?.bind (Expr.operation? BinaryOp.products) with
  | some op => rfl
  | none =>
      cases t?.bind (Expr.operation? BinaryOp.sums) with
      | some op => rfl
      | none => exact m.onValue_map limit done _ _ owner t?

theorem onName_map {t : Token} (ht : t.kind = .identifier) (frames : List Frame) (owner : Owner)
    (t? : Option Token) :
    onName limit (done.map m.statement) (m.token t) (frames.map m.frame) (m.owner owner)
        (t?.map m.token) =
      m.outcome m.state (onName limit done t frames owner t?) := by
  have hopen := m.any_punctuation t? "("
  rw [onName, onName, hopen, m.token_text_of_identifier ht]
  split
  · exact m.enter_map limit done t frames (.opened t.text frames owner)
  · exact m.onOperand_map limit done (.var t.text) frames owner t?

theorem onParameter_map (name : String) (params : List String) (t? : Option Token) :
    onParameter (done.map m.statement) (m.name name) (params.map m.name) (t?.map m.token) =
      m.outcome m.state (onParameter done name params t?) := by
  cases t? with
  | none => rfl
  | some t =>
      rw [Option.map_some, onParameter, onParameter, token_kind]
      by_cases hkind : t.kind = .identifier
      · -- Only here are names compared, so only here must different ones stay different.
        have hmem : m.name t.text ∈ params.map m.name ↔ t.text ∈ params := by
          rw [List.mem_map]
          constructor
          · rintro ⟨param, hparam, hsame⟩
            rwa [← m.name_injective hsame]
          · exact fun hparam => ⟨_, hparam, rfl⟩
        rw [if_pos hkind, if_pos hkind, m.token_text_of_identifier hkind]
        simp only [hmem]
        split <;> rfl
      · rw [if_neg hkind, if_neg hkind]
        rfl

/-- The token that is held, if any, is a name. -/
def HoldsName (s : State) : Prop :=
  ∀ t, s.stage.held = some t → t.kind = .identifier

theorem step_map {s : State} (hs : HoldsName s) (t? : Option Token) :
    step limit (m.state s) (t?.map m.token) = m.outcome m.state (step limit s t?) := by
  have hopen := m.any_punctuation t? "("
  have hclose := m.any_punctuation t? ")"
  have hcomma := m.any_punctuation t? ","
  have hcolon := m.any_punctuation t? ":"
  have hequals := m.any_operator t? "="
  obtain ⟨done, stage⟩ := s
  cases stage with
  | start => exact m.onStart_map limit done t?
  | named t =>
      have ht := hs t rfl
      rw [state, Relabelling.stage, step_named, step_named, hequals, m.token_text_of_identifier ht]
      split
      · rfl
      · exact m.onName_map limit done ht [] .expression t?
  | factor frames owner => exact m.onFactor_map limit done frames owner t?
  | name t frames owner => exact m.onName_map limit done (hs t rfl) frames owner t?
  | opened function frames owner =>
      rw [state, Relabelling.stage, step_opened, step_opened, hclose]
      split
      · rfl
      · exact m.onFactor_map limit done (.argument function [] :: frames) owner t?
  | operand e frames owner => exact m.onOperand_map limit done e frames owner t?
  | functionName =>
      cases t? with
      | none => rfl
      | some t =>
          rw [state, Relabelling.stage, Option.map_some, step_functionName_some,
            step_functionName_some, token_kind]
          split
          · next hkind =>
              rw [m.token_text_of_identifier hkind]
              rfl
          · rfl
  | openParameters name =>
      rw [state, Relabelling.stage, step_openParameters, step_openParameters, hopen]
      split <;> rfl
  | firstParameter name =>
      rw [state, Relabelling.stage, step_firstParameter, step_firstParameter, hclose]
      split
      · rfl
      · exact m.onParameter_map done name [] t?
  | parameter name params => exact m.onParameter_map done name params t?
  | moreParameters name params =>
      rw [state, Relabelling.stage, step_moreParameters, step_moreParameters, hcomma, hclose]
      split
      · rfl
      · split <;> rfl
  | colon name params =>
      rw [state, Relabelling.stage, step_colon, step_colon, hcolon]
      split
      · rw [← List.map_reverse]
        rfl
      · rfl
  | body name params body => exact m.onBody_map limit done name params body t?

theorem run_map {s : State} (hs : HoldsName s) (ts : List Token) :
    run limit (m.state s) (ts.map m.token) = m.outcome m.program (run limit s ts) := by
  induction ts generalizing s with
  | nil =>
      have hstep := m.step_map limit hs none
      rw [Option.map_none] at hstep
      rw [List.map_nil, run, run, hstep]
      cases step limit s none with
      | error x => rfl
      | ok s' =>
          change Except.ok (Program.mk (s'.done.map m.statement).reverse) =
            .ok ⟨m.statements s'.done.reverse⟩
          rw [statements_eq_map, List.map_reverse]
  | cons t ts ih =>
      have hstep := m.step_map limit hs (some t)
      rw [Option.map_some] at hstep
      rw [List.map_cons]
      cases ht : step limit s (some t) with
      | error x =>
          rw [ht] at hstep
          rw [run_cons_of_error hstep, run_cons_of_error ht]
          rfl
      | ok s' =>
          rw [ht] at hstep
          rw [run_cons_of_ok hstep, run_cons_of_ok ht]
          exact ih fun u hu => (step_some_held ht hu).2

end

/-- Reading tokens with other labels gives the same program with these labels, or the same error at
the token with its labels. -/
theorem ofTokensWithin_map (n : Nat) (ts : List Token) :
    Program.ofTokensWithin n (ts.map m.token) =
      m.outcome m.program (Program.ofTokensWithin n ts) := by
  have hstart : HoldsName ⟨[], .start⟩ := by
    intro t ht
    cases ht
  rw [ofTokensWithin_eq_run, ofTokensWithin_eq_run]
  exact m.run_map n hstart ts

end ExprFront.Relabelling
