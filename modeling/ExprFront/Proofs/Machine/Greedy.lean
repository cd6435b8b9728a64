import ExprFront.Proofs.Grammar.Complete
import ExprFront.Proofs.Grammar.Plain
import ExprFront.Proofs.Machine.Errors

/-!
Reading greedily costs nothing but depth: what the plain grammar derives, in whatever way, is
read. The plain grammar may end a statement where the reader goes on, before a sign or a
parenthesis. The reader then takes the next statement for an operand or an argument, and stands,
where that statement ends, at the end of a longer one. So it is shown of every such place at once
that what the grammar derives from there is read: at the start of a statement, in a body, and
after a value with any operations and signs that wait for it.
-/

namespace ExprFront.Machine

open Grammar

variable {limit n : Nat} {done : List Statement} {base frames : List Frame} {owner : Owner}
variable {t u v w : Token} {ts us rest : List Token} {e : Expr}

/-- A run that fails, if it fails, for its depth. -/
def Passes (limit : Nat) (s : State) (ts : List Token) : Prop :=
  ∀ x, run limit s ts = .error x → ∃ t : Token, x = ⟨t, .shallowerExpression⟩

theorem Passes.of_run_eq {s s' : State} (h : Passes limit s' us)
    (hrun : run limit s ts = run limit s' us) : Passes limit s ts := by
  intro x hx
  exact h x (hrun.symm.trans hx)

theorem Passes.of_step {s s' : State} (h : Passes limit s' ts)
    (hstep : step limit s (some t) = .ok s') : Passes limit s (t :: ts) :=
  h.of_run_eq (run_cons_of_ok hstep)

theorem Passes.of_enter {s : State} {opener : Token} {stage : Stage}
    (h : Passes limit ⟨done, stage⟩ ts)
    (hstep : step limit s (some t) = enter limit done opener frames stage) :
    Passes limit s (t :: ts) := by
  by_cases hlevels : levels frames < limit
  · exact h.of_step (hstep.trans (enter_of_lt hlevels))
  · intro x hx
    rw [run_cons_of_error (hstep.trans (if_neg hlevels))] at hx
    cases hx
    exact ⟨opener, rfl⟩

/-! Values under way. -/

/-- Operations and signs that wait for an operand; no bracket is open. -/
def Loose : List Frame → Prop
  | [] => True
  | .left _ _ :: frames => Loose frames
  | .sign _ :: frames => Loose frames
  | .parens :: _ => False
  | .argument _ _ :: _ => False

theorem settled_nil : Settled operations [] := trivial

theorem settled_parens (frames : List Frame) : Settled operations (.parens :: frames) := trivial

theorem settled_argument (function : String) (earlier : List Expr) (frames : List Frame) :
    Settled operations (.argument function earlier :: frames) := trivial

theorem settle_operations (hframes : Loose frames) (hbase : Settled operations base) (e : Expr) :
    ∃ value, settle operations e (frames ++ base) = (value, base) := by
  induction frames generalizing e with
  | nil => exact ⟨e, hbase.settle_eq e⟩
  | cons frame frames ih =>
      cases frame with
      | left operand op =>
          rw [List.cons_append, settle_left_of_mem (mem_operations op)]
          exact ih hframes _
      | sign op => exact ih hframes (.unary op e)
      | parens => exact absurd hframes id
      | argument function earlier => exact absurd hframes id

theorem settle_products (hframes : Loose frames) (hbase : Settled operations base) (e : Expr) :
    ∃ value waiting, Loose waiting ∧
      settle BinaryOp.products e (frames ++ base) = (value, waiting ++ base) := by
  induction frames generalizing e with
  | nil => exact ⟨e, [], trivial, hbase.products.settle_eq e⟩
  | cons frame frames ih =>
      cases frame with
      | left operand op =>
          by_cases hmem : op ∈ BinaryOp.products
          · rw [List.cons_append, settle_left_of_mem hmem]
            exact ih hframes _
          · exact ⟨e, .left operand op :: frames, hframes, if_neg hmem⟩
      | sign op => exact ih hframes (.unary op e)
      | parens => exact absurd hframes id
      | argument function earlier => exact absurd hframes id

theorem step_operand_loose (limit : Nat) (done : List Statement) (owner : Owner) (e : Expr)
    (hframes : Loose frames) (hbase : Settled operations base) (hend : Ended ts) :
    ∃ value, step limit ⟨done, .operand e (frames ++ base) owner⟩ ts.head? =
      onValue limit done value base owner ts.head? := by
  obtain ⟨value, hvalue⟩ := settle_operations hframes hbase e
  refine ⟨value, ?_⟩
  simp only [step, onOperand, hend.1, hend.2, hvalue]

/-- However the value under way on top of a base has come to its end, the tokens are read. -/
structure GoesOn (limit : Nat) (done : List Statement) (base : List Frame) (owner : Owner)
    (ts : List Token) : Prop where
  operand : ∀ frames e, Loose frames → Passes limit ⟨done, .operand e (frames ++ base) owner⟩ ts
  name : ∀ frames t, Loose frames → Passes limit ⟨done, .name t (frames ++ base) owner⟩ ts

theorem run_name_of_not_open (h : ¬ Next (·.is .punctuation "(") ts) (t : Token) :
    run limit ⟨done, .name t frames owner⟩ ts =
      run limit ⟨done, .operand (.var t.text) frames owner⟩ ts := by
  rw [next_is_iff] at h
  exact run_congr ((step_name limit done t frames owner ts.head?).trans (if_neg h))

theorem GoesOn.of_operand (hopen : ¬ Next (·.is .punctuation "(") ts)
    (h : ∀ frames e, Loose frames → Passes limit ⟨done, .operand e (frames ++ base) owner⟩ ts) :
    GoesOn limit done base owner ts where
  operand := h
  name frames t hframes := (h frames _ hframes).of_run_eq (run_name_of_not_open hopen t)

theorem GoesOn.of_value (hopen : ¬ Next (·.is .punctuation "(") ts) (hend : Ended ts)
    (hbase : Settled operations base)
    (h : ∀ value s, step limit s ts.head? = onValue limit done value base owner ts.head? →
      Passes limit s ts) : GoesOn limit done base owner ts := by
  apply GoesOn.of_operand hopen
  intro frames e hframes
  obtain ⟨value, hstep⟩ := step_operand_loose limit done owner e hframes hbase hend
  exact h value _ hstep

theorem not_open_of_kind (h : t.kind ≠ .punctuation) (ts : List Token) :
    ¬ Next (·.is .punctuation "(") (t :: ts) := by
  simp [Token.is_iff, h]

theorem not_open_of_is {text : String} (h : t.is .punctuation text) (hne : text ≠ "(")
    (ts : List Token) : ¬ Next (·.is .punctuation "(") (t :: ts) := by
  simp [Token.is_iff, (Token.is_iff.mp h).2, hne]

theorem ended_of_is {text : String} (h : t.is .punctuation text) (ts : List Token) :
    Ended (t :: ts) := by
  apply ended_cons
  simp [(Token.is_iff.mp h).1]

/-! What goes on with a value. -/

theorem goesOn_of_product {op : BinaryOp} (hmem : op ∈ BinaryOp.products) (hsign : Sign op t)
    (hbase : Settled operations base)
    (h : ∀ frames, Loose frames → Passes limit ⟨done, .factor (frames ++ base) owner⟩ us) :
    GoesOn limit done base owner (t :: us) := by
  have hop := Expr.operation?_eq_some_iff.mpr ⟨hmem, hsign⟩
  apply GoesOn.of_operand
  · apply not_open_of_kind
    simp [hsign.1]
  · intro frames e hframes
    obtain ⟨value, waiting, hwaiting, hsettle⟩ := settle_products hframes hbase e
    apply (h (.left value op :: waiting) hwaiting).of_step
    simp only [step, onOperand, Option.bind_some, hop, hsettle, List.cons_append]

theorem goesOn_of_sum {op : BinaryOp} (hmem : op ∈ BinaryOp.sums) (hsign : Sign op t)
    (hbase : Settled operations base)
    (h : ∀ frames, Loose frames → Passes limit ⟨done, .factor (frames ++ base) owner⟩ us) :
    GoesOn limit done base owner (t :: us) := by
  have hop := Expr.operation?_eq_some_iff.mpr ⟨hmem, hsign⟩
  have hproduct := operation?_of_not_mem hsign (not_mem_products hmem)
  apply GoesOn.of_operand
  · apply not_open_of_kind
    simp [hsign.1]
  · intro frames e hframes
    obtain ⟨value, hsettle⟩ := settle_operations hframes hbase e
    apply (h [.left value op] trivial).of_step
    simp only [step, onOperand, Option.bind_some, hproduct, hop, hsettle, List.singleton_append]

theorem next_is_cons {kind : Token.Kind} {text : String} (h : Next (·.is kind text) ts) :
    ∃ t us, ts = t :: us ∧ t.is kind text := by
  cases ts with
  | nil => exact absurd h (not_next_nil _)
  | cons t us => exact ⟨t, us, rfl, (next_cons _ _ _).mp h⟩

theorem goesOn_parens (hframes : Loose frames) (hv : v.is .punctuation ")")
    (h : GoesOn limit done base owner rest) :
    GoesOn limit done (.parens :: (frames ++ base)) owner (v :: rest) := by
  apply GoesOn.of_value (not_open_of_is hv (by decide) rest) (ended_of_is hv rest)
    (settled_parens _)
  intro value s hstep
  exact (h.operand frames value hframes).of_step (hstep.trans (if_pos hv))

theorem goesOn_lastArgument (hframes : Loose frames) (hclose : Next (·.is .punctuation ")") rest)
    (h : GoesOn limit done base owner rest.tail) (function : String) (earlier : List Expr) :
    GoesOn limit done (.argument function earlier :: (frames ++ base)) owner rest := by
  obtain ⟨v, rest, rfl, hv⟩ := next_is_cons hclose
  have hcomma : ¬ v.is .punctuation "," := by simp [Token.is_iff, (Token.is_iff.mp hv).2]
  apply GoesOn.of_value (not_open_of_is hv (by decide) rest) (ended_of_is hv rest)
    (settled_argument _ _ _)
  intro value s hstep
  exact (h.operand frames _ hframes).of_step (hstep.trans ((if_neg hcomma).trans (if_pos hv)))

theorem goesOn_argument {function : String} {earlier : List Expr} (ht : t.is .punctuation ",")
    (h : ∀ e, Passes limit ⟨done, .factor (.argument function (e :: earlier) :: base) owner⟩ us) :
    GoesOn limit done (.argument function earlier :: base) owner (t :: us) := by
  apply GoesOn.of_value (not_open_of_is ht (by decide) us) (ended_of_is ht us)
    (settled_argument _ _ _)
  intro value s hstep
  exact (h value).of_step (hstep.trans (if_pos ht))

theorem passes_sign {op : UnaryOp} (hkind : t.kind = .operator) (htext : t.text = op.symbol)
    (h : Passes limit ⟨done, .factor (.sign op :: frames) owner⟩ us) :
    Passes limit ⟨done, .factor frames owner⟩ (t :: us) := by
  have hstep := step_factor_some limit done t frames owner
  simp only [hkind, UnaryOp.ofSymbol?_eq_some_iff.mpr htext] at hstep
  exact h.of_enter hstep

theorem passes_parens (ht : t.is .punctuation "(")
    (h : Passes limit ⟨done, .factor (.parens :: frames) owner⟩ us) :
    Passes limit ⟨done, .factor frames owner⟩ (t :: us) := by
  obtain ⟨hkind, htext⟩ := Token.is_iff.mp ht
  have hstep := step_factor_some limit done t frames owner
  simp only [hkind, htext, if_true] at hstep
  exact h.of_enter hstep

theorem passes_call (hu : u.is .punctuation "(")
    (h : Passes limit ⟨done, .opened t.text frames owner⟩ us) :
    Passes limit ⟨done, .name t frames owner⟩ (u :: us) := by
  apply h.of_enter
  exact (step_name limit done t frames owner u).trans (if_pos hu)

theorem opened_passes_of_close (hframes : Loose frames)
    (hclose : Next (·.is .punctuation ")") rest) (h : GoesOn limit done base owner rest.tail)
    (function : String) :
    Passes limit ⟨done, .opened function (frames ++ base) owner⟩ rest := by
  obtain ⟨v, rest, rfl, hv⟩ := next_is_cons hclose
  apply (h.operand frames (.call function []) hframes).of_step
  exact (step_opened limit done function (frames ++ base) owner v).trans (if_pos hv)

theorem opened_passes_of_not_close {function : String} (hclose : ¬ Next (·.is .punctuation ")") ts)
    (h : Passes limit ⟨done, .factor (.argument function [] :: frames) owner⟩ ts) :
    Passes limit ⟨done, .opened function frames owner⟩ ts := by
  rw [next_is_iff] at hclose
  have hstep := step_opened limit done function frames owner ts.head?
  exact h.of_run_eq (run_congr (hstep.trans (if_neg hclose)))

/- By induction on the derivation. A base is what stands before the expression, and the frames on
top of it are the operations and signs of the expression that the reader still has to complete. -/
mutual

theorem factor_passes : ∀ {n ts e rest base}, Factor False n ts e rest →
    Settled operations base → GoesOn limit done base owner rest → ∀ frames, Loose frames →
    Passes limit ⟨done, .factor (frames ++ base) owner⟩ ts
  | _, _, _, _, _, .integer hkind, _, hrest, frames, hframes => by
      apply (hrest.operand frames _ hframes).of_step
      rw [step_factor_some, hkind]
  | _, _, _, _, _, .float hkind, _, hrest, frames, hframes => by
      apply (hrest.operand frames _ hframes).of_step
      rw [step_factor_some, hkind]
  | _, _, _, _, _, .var hkind _, _, hrest, frames, hframes => by
      apply (hrest.name frames _ hframes).of_step
      rw [step_factor_some, hkind]
  | _, _, _, _, _, .call hkind hu hes hv, hbase, hrest, frames, hframes => by
      have harguments :=
        arguments_passes hes ((next_cons _ _ _).mpr hv) hbase hrest frames hframes
      apply (passes_call hu (harguments _)).of_step
      rw [step_factor_some, hkind]
  | _, _, _, _, _, .unary hkind htext he, hbase, hrest, frames, hframes =>
      passes_sign hkind htext (factor_passes he hbase hrest (_ :: frames) hframes)
  | _, _, _, _, _, .parens ht he hv, _, hrest, _, hframes =>
      passes_parens ht (expression_passes he (settled_parens _) (goesOn_parens hframes hv hrest))

theorem products_goesOn : ∀ {n ts others rest base}, Products False n ts others rest →
    Settled operations base → GoesOn limit done base owner rest → GoesOn limit done base owner ts
  | _, _, _, _, _, .nil _, _, hrest => hrest
  | _, _, _, _, _, .cons hmem hsign he hothers, hbase, hrest =>
      goesOn_of_product hmem hsign hbase
        (factor_passes he hbase (products_goesOn hothers hbase hrest))

theorem term_passes : ∀ {n ts e rest base}, Term False n ts e rest →
    Settled operations base → GoesOn limit done base owner rest → ∀ frames, Loose frames →
    Passes limit ⟨done, .factor (frames ++ base) owner⟩ ts
  | _, _, _, _, _, .mk hfirst hothers, hbase, hrest =>
      factor_passes hfirst hbase (products_goesOn hothers hbase hrest)

theorem sums_goesOn : ∀ {n ts others rest base}, Sums False n ts others rest →
    Settled operations base → GoesOn limit done base owner rest → GoesOn limit done base owner ts
  | _, _, _, _, _, .nil _, _, hrest => hrest
  | _, _, _, _, _, .cons hmem hsign he hothers, hbase, hrest =>
      goesOn_of_sum hmem hsign hbase
        (term_passes he hbase (sums_goesOn hothers hbase hrest))

theorem expression_passes : ∀ {n ts e rest base}, Expression False n ts e rest →
    Settled operations base → GoesOn limit done base owner rest →
    Passes limit ⟨done, .factor base owner⟩ ts
  | _, _, _, _, _, .mk hfirst hothers, hbase, hrest =>
      term_passes hfirst hbase (sums_goesOn hothers hbase hrest) [] trivial

theorem arguments_passes : ∀ {n ts es rest base}, Arguments False n ts es rest →
    Next (·.is .punctuation ")") rest → Settled operations base →
    GoesOn limit done base owner rest.tail → ∀ frames, Loose frames → ∀ function,
      Passes limit ⟨done, .opened function (frames ++ base) owner⟩ ts
  | _, _, _, _, _, .none, hclose, _, hrest, _, hframes, function =>
      opened_passes_of_close hframes hclose hrest function
  | _, _, _, _, _, .some he hes, hclose, hbase, hrest, frames, hframes, function =>
      opened_passes_of_not_close he.not_close (expression_passes he (settled_argument _ _ _)
        (moreArguments_goesOn hes hclose hbase hrest frames hframes function []))

theorem moreArguments_goesOn : ∀ {n ts es rest base}, MoreArguments False n ts es rest →
    Next (·.is .punctuation ")") rest → Settled operations base →
    GoesOn limit done base owner rest.tail → ∀ frames, Loose frames → ∀ function earlier,
      GoesOn limit done (.argument function earlier :: (frames ++ base)) owner ts
  | _, _, _, _, _, .nil, hclose, _, hrest, _, hframes, function, earlier =>
      goesOn_lastArgument hframes hclose hrest function earlier
  | _, _, _, _, _, .cons ht he hes, hclose, hbase, hrest, frames, hframes, function, earlier =>
      goesOn_argument ht fun e => expression_passes he (settled_argument _ _ _)
        (moreArguments_goesOn hes hclose hbase hrest frames hframes function (e :: earlier))

end

/-! Statements. -/

/-- Where a statement may begin, whether or not the reader takes it for one. -/
structure Ready (limit : Nat) (ts : List Token) : Prop where
  start : ∀ done, Passes limit ⟨done, .start⟩ ts
  value : ∀ done owner, GoesOn limit done [] owner ts

theorem body_passes_of_start (hreturn : ¬ Next (·.is .keyword "return") ts)
    (hstart : ∀ done, Passes limit ⟨done, .start⟩ ts) (name : String) (params : List String)
    (body : List Statement) : Passes limit ⟨done, .body name params body⟩ ts := by
  rw [next_is_iff] at hreturn
  have hstep := step_body limit done name params body ts.head?
  exact (hstart _).of_run_eq (run_congr (hstep.trans (if_neg hreturn)))

theorem operand_passes_of_start (hend : Ended ts) (hreturn : ¬ Next (·.is .keyword "return") ts)
    (hstart : ∀ done, Passes limit ⟨done, .start⟩ ts) (e : Expr) (hframes : Loose frames) :
    Passes limit ⟨done, .operand e (frames ++ []) owner⟩ ts := by
  obtain ⟨value, hstep⟩ := step_operand_loose limit done owner e hframes settled_nil hend
  cases owner with
  | expression => exact (hstart (.expression value :: done)).of_run_eq (run_congr hstep)
  | assignment target =>
      exact (hstart (.assignment target value :: done)).of_run_eq (run_congr hstep)
  | returning name params body =>
      have hbody : Passes limit ⟨done, .body name params (.returning value :: body)⟩ ts :=
        body_passes_of_start hreturn hstart name params _
      exact hbody.of_run_eq (run_congr hstep)

/-- Nothing that stands before such a statement takes it for more of its own. -/
theorem Ready.of_start (hopen : ¬ Next (·.is .punctuation "(") ts)
    (hend : Ended ts) (hreturn : ¬ Next (·.is .keyword "return") ts)
    (hstart : ∀ done, Passes limit ⟨done, .start⟩ ts) : Ready limit ts where
  start := hstart
  value done owner := by
    apply GoesOn.of_operand hopen
    intro frames e hframes
    exact operand_passes_of_start hend hreturn hstart e hframes

theorem Ready.of_kind (hpunctuation : t.kind ≠ .punctuation) (hoperator : t.kind ≠ .operator)
    (hreturn : ¬ Next (·.is .keyword "return") (t :: us))
    (hstart : ∀ done, Passes limit ⟨done, .start⟩ (t :: us)) : Ready limit (t :: us) :=
  .of_start (not_open_of_kind hpunctuation us) (ended_cons hoperator us) hreturn hstart

theorem ready_nil (limit : Nat) : Ready limit [] := by
  apply Ready.of_start (not_next_nil _) ⟨rfl, rfl⟩ (not_next_nil _)
  intro done x hx
  cases hx

/-- Where the body of a definition goes on, be it that a value in it has just been read. -/
def GoesOnBody (limit : Nat) (done : List Statement) (name : String) (params : List String)
    (ts : List Token) : Prop :=
  (∀ body, Passes limit ⟨done, .body name params body⟩ ts) ∧
    ∀ body, GoesOn limit done [] (.returning name params body) ts

theorem goesOnBody_of_return {name : String} {params : List String} (ht : t.is .keyword "return")
    (h : ∀ body, Passes limit ⟨done, .factor [] (.returning name params body)⟩ us) :
    GoesOnBody limit done name params (t :: us) := by
  have hkind := (Token.is_iff.mp ht).1
  have hbody : ∀ body, Passes limit ⟨done, .body name params body⟩ (t :: us) := by
    intro body
    have hstep := step_body limit done name params body t
    exact (h body).of_step (hstep.trans (if_pos ht))
  refine ⟨hbody, ?_⟩
  intro body
  apply GoesOn.of_value (not_open_of_kind (by simp [hkind]) us) (ended_cons (by simp [hkind]) us)
    settled_nil
  intro value s hstep
  exact (hbody (.returning value :: body)).of_run_eq (run_congr hstep)

theorem returns_goesOn {returns : List Statement} {name : String} {params : List String}
    (h : Returns False n ts returns rest) (hrest : GoesOnBody limit done name params rest) :
    GoesOnBody limit done name params ts := by
  induction h with
  | nil _ => exact hrest
  | cons ht he _ ih =>
      obtain ⟨_, hvalue⟩ := ih hrest
      apply goesOnBody_of_return ht
      intro body
      exact expression_passes he settled_nil (hvalue body)

theorem run_firstParameter (name : String) {params : List String}
    (h : Parameters ts params rest) (hnodup : params.Nodup)
    (hclose : Next (·.is .punctuation ")") rest) :
    run limit ⟨done, .firstParameter name⟩ ts =
      run limit ⟨done, .colon name params.reverse⟩ rest.tail := by
  rw [← parameters_run name (fun params => rfl), Statement.parameters_complete h hnodup hclose]

theorem definition_start {name : Token} {mid : List Token} {params : List String}
    (ht : t.is .keyword "def") (hname : name.kind = .identifier) (hu : u.is .punctuation "(")
    (hparams : Parameters us params (v :: w :: mid)) (hnodup : params.Nodup)
    (hv : v.is .punctuation ")") (hw : w.is .punctuation ":")
    (hbody : Passes limit ⟨done, .body name.text params []⟩ mid) :
    Passes limit ⟨done, .start⟩ (t :: name :: u :: us) := by
  have hname := (step_functionName_some limit done name).trans (if_pos hname)
  have hopen := (step_openParameters limit done name.text u).trans (if_pos hu)
  have hcolon := (step_colon limit done name.text params.reverse w).trans (if_pos hw)
  rw [List.reverse_reverse] at hcolon
  have hfirst := (hbody.of_step hcolon).of_run_eq
    (run_firstParameter name.text hparams hnodup ((next_cons _ _ _).mpr hv))
  exact ((hfirst.of_step hopen).of_step hname).of_step (if_pos ht)

theorem assignment_start {target : Token} (hkind : target.kind = .identifier)
    (ht : t.is .operator "=") (he : Expression False n us e rest)
    (hrest : GoesOn limit done [] (.assignment target.text) rest) :
    Passes limit ⟨done, .start⟩ (target :: t :: us) := by
  have hvalue := expression_passes he settled_nil hrest
  have hnamed := (step_named limit done target t).trans (if_pos ht)
  exact (hvalue.of_step hnamed).of_run_eq (run_start_of_identifier hkind (t :: us))

theorem expression_start (he : Expression False n ts e rest)
    (hequals : ¬ Next (·.is .operator "=") rest)
    (hrest : GoesOn limit done [] .expression rest) : Passes limit ⟨done, .start⟩ ts := by
  have hdef := Statement.not_def_of_starts he.starts
  have htarget := Statement.target?_eq_none_iff.mpr (he.not_startsAssignment hequals)
  have hvalue := expression_passes he settled_nil hrest
  cases ts with
  | nil =>
      obtain ⟨t, ht, _⟩ := he.starts
      cases ht
  | cons t us => exact hvalue.of_run_eq (run_start_eq_factor hdef htarget)

/-- A sign after a value joins the factor that it stands before to that value. -/
theorem goesOn_sign {mid mid' : List Token} {n' : Nat} {op : UnaryOp}
    {products sums : List (BinaryOp × Expr)} (hkind : t.kind = .operator)
    (htext : t.text = op.symbol) (he : Factor False n us e mid)
    (hproducts : Products False n' mid products mid') (hsums : Sums False n' mid' sums rest)
    (hrest : GoesOn limit done [] owner rest) : GoesOn limit done [] owner (t :: us) := by
  have hafter := products_goesOn hproducts settled_nil (sums_goesOn hsums settled_nil hrest)
  have hfactor := factor_passes he settled_nil hafter
  cases op with
  | minus =>
      have hmem : BinaryOp.subtract ∈ BinaryOp.sums := by decide
      exact goesOn_of_sum hmem ⟨hkind, htext⟩ settled_nil hfactor
  | plus =>
      have hmem : BinaryOp.add ∈ BinaryOp.sums := by decide
      exact goesOn_of_sum hmem ⟨hkind, htext⟩ settled_nil hfactor

/-- A parenthesis after a name calls it; after any other value it begins a statement. -/
theorem goesOn_parenthesis (ht : t.is .punctuation "(")
    (he : Expression False n us e (v :: rest)) (hv : v.is .punctuation ")")
    (hstart : ∀ done, Passes limit ⟨done, .start⟩ (t :: us))
    (hrest : GoesOn limit done [] owner rest) : GoesOn limit done [] owner (t :: us) where
  operand frames e hframes := by
    apply operand_passes_of_start (ended_of_is ht us) _ hstart e hframes
    simp [Token.is_iff, (Token.is_iff.mp ht).1]
  name frames f hframes := by
    have hargument := goesOn_lastArgument hframes ((next_cons _ _ _).mpr hv) hrest f.text []
    apply passes_call ht
    apply opened_passes_of_not_close he.not_close
    exact expression_passes he (settled_argument _ _ _) hargument

theorem expression_ready (he : Expression False n ts e rest)
    (hequals : ¬ Next (·.is .operator "=") rest)
    (hrest : Ready limit rest) : Ready limit ts := by
  have hstart : ∀ done, Passes limit ⟨done, .start⟩ ts := by
    intro done
    exact expression_start he hequals (hrest.value done .expression)
  have hreturn := he.not_return
  obtain ⟨⟨hfirst, hproducts⟩, hsums⟩ := he
  -- Only a sign or a parenthesis can be taken for more of what stands before it.
  cases hfirst with
  | integer hkind => exact .of_kind (by simp [hkind]) (by simp [hkind]) hreturn hstart
  | float hkind => exact .of_kind (by simp [hkind]) (by simp [hkind]) hreturn hstart
  | var hkind _ => exact .of_kind (by simp [hkind]) (by simp [hkind]) hreturn hstart
  | call hkind _ _ _ => exact .of_kind (by simp [hkind]) (by simp [hkind]) hreturn hstart
  | unary hkind htext he =>
      refine ⟨hstart, ?_⟩
      intro done owner
      exact goesOn_sign hkind htext he hproducts hsums (hrest.value done owner)
  | parens ht he hv =>
      refine ⟨hstart, ?_⟩
      intro done owner
      have hafter := products_goesOn hproducts settled_nil
        (sums_goesOn hsums settled_nil (hrest.value done owner))
      exact goesOn_parenthesis ht he hv hstart hafter

theorem stmt_ready {s : Statement} (h : Stmt False n ts s rest)
    (hequals : ¬ Next (·.is .operator "=") rest) (hreturn : ¬ Next (·.is .keyword "return") rest)
    (hrest : Ready limit rest) : Ready limit ts := by
  have hnext := h.not_return
  cases h with
  | definition ht hname hu hparams hnodup hv hw hbody =>
      have hkind := (Token.is_iff.mp ht).1
      apply Ready.of_kind (by simp [hkind]) (by simp [hkind]) hnext
      intro done
      obtain ⟨hbody, _⟩ := returns_goesOn hbody ⟨
        fun body => body_passes_of_start hreturn hrest.start _ _ body,
        fun body => hrest.value done _⟩
      exact definition_start ht hname hu hparams hnodup hv hw (hbody [])
  | assignment hkind ht he =>
      apply Ready.of_kind (by simp [hkind]) (by simp [hkind]) hnext
      intro done
      exact assignment_start hkind ht he (hrest.value done _)
  | expression _ he => exact expression_ready he hequals hrest

theorem prog_ready {ss : List Statement} (h : Prog False n ts ss) : Ready limit ts := by
  induction h with
  | nil => exact ready_nil limit
  | cons hs hprog ih => exact stmt_ready hs hprog.not_equals hprog.not_return ih

end ExprFront.Machine

namespace ExprFront.Program

open Grammar Machine

/-- What is read derives in the plain grammar; what derives there in any way is read, unless it has
more levels open at once than are allowed. -/
theorem ofTokens_of_plain_derivation (ts : List Token) :
    (∀ p, ofTokens ts = .ok p → ∃ n, Prog False n ts p.statements) ∧
      ∀ n ss, Prog False n ts ss → (∃ p, ofTokens ts = .ok p) ∨
        ∃ t : Token, ofTokens ts = .error ⟨t, .shallowerExpression⟩ := by
  constructor
  · intro p hp
    exact ⟨maxNesting, (ofTokensWithin_eq_ok_iff.mp hp).plain⟩
  · intro n ss hprog
    have hpasses : Passes maxNesting ⟨[], .start⟩ ts := (prog_ready hprog).start []
    cases hread : ofTokens ts with
    | ok p => exact .inl ⟨p, rfl⟩
    | error x =>
        right
        rw [ofTokens, ofTokensWithin_eq_run] at hread
        obtain ⟨t, rfl⟩ := hpasses x hread
        exact ⟨t, rfl⟩

def parenthesisedOne : List Token :=
  [inserted .punctuation "(", inserted .integer "1", inserted .punctuation ")"]

/-- `x (1)`, a call or two statements. -/
def nameAndParens : List Token :=
  inserted .identifier "x" :: parenthesisedOne

theorem nameAndParens_derives_as_two_statements :
    Prog False 1 nameAndParens [.expression (.var "x"), .expression (.number "1" false)] := by
  have hvalue : ∀ {n ts e rest}, Factor False n ts e rest → Expression False n ts e rest :=
    fun h => .mk (.mk h (.nil False.elim)) (.nil False.elim)
  have hname : Expression False 1 nameAndParens (.var "x") parenthesisedOne :=
    hvalue (.var rfl False.elim)
  have hparens : Factor False 1 parenthesisedOne (.number "1" false) [] :=
    .parens rfl (hvalue (.integer rfl)) rfl
  exact .cons (.expression False.elim hname) (.cons (.expression False.elim (hvalue hparens)) .nil)

theorem nameAndParens_read_as_call :
    (∃ n, Prog False n nameAndParens [.expression (.call "x" [.number "1" false])]) ∧
      Prog False 1 nameAndParens [.expression (.var "x"), .expression (.number "1" false)] ∧
      ((∃ p, ofTokens nameAndParens = .ok p) ∨
        ∃ t : Token, ofTokens nameAndParens = .error ⟨t, .shallowerExpression⟩) := by
  have hread : ofTokens nameAndParens = .ok ⟨[.expression (.call "x" [.number "1" false])]⟩ := by
    rw [ofTokens, ofTokensWithin_eq_run]
    rfl
  have hcall := (ofTokens_of_plain_derivation nameAndParens).1 _ hread
  have htwo := nameAndParens_derives_as_two_statements
  exact ⟨hcall, htwo, (ofTokens_of_plain_derivation nameAndParens).2 _ _ htwo⟩

end ExprFront.Program
