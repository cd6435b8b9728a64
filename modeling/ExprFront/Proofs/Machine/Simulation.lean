import ExprFront.Proofs.Grammar.Sound
import ExprFront.Proofs.Machine

/-!
The machine reads as the phrases do: the same program, or the same error. Each phrase, with the rest
of a run as its continuation, is the run from the stage in which that phrase is due. This is shown
for factors by the levels that are left, and for loops by the tokens that are left.
-/

namespace ExprFront.Machine

open Phrase Grammar

variable {limit : Nat} {done : List Statement} {frames : List Frame} {owner : Owner} {e : Expr}

/-- A run sees the state only through its step on the next token. -/
theorem run_congr {s s' : State} {ts : List Token}
    (h : step limit s ts.head? = step limit s' ts.head?) : run limit s ts = run limit s' ts := by
  cases ts with
  | nil =>
      change step limit s none = step limit s' none at h
      rw [run, run, h]
  | cons t ts =>
      change step limit s (some t) = step limit s' (some t) at h
      rw [run, run, h]

theorem run_cons_of_ok {s s' : State} {t : Token} {ts : List Token}
    (h : step limit s (some t) = .ok s') : run limit s (t :: ts) = run limit s' ts := by
  rw [run, h]
  rfl

theorem run_cons_of_error {s : State} {t : Token} {ts : List Token} {x : ParseError}
    (h : step limit s (some t) = .error x) : run limit s (t :: ts) = .error x := by
  rw [run, h]
  rfl

/-! Frames that a complete operand settles. -/

theorem run_operand_sign (op : UnaryOp) (ts : List Token) :
    run limit ⟨done, .operand e (.sign op :: frames) owner⟩ ts =
      run limit ⟨done, .operand (.unary op e) frames owner⟩ ts :=
  run_congr rfl

theorem settle_left_of_mem {ops : List BinaryOp} {op : BinaryOp} (hmem : op ∈ ops)
    (operand : Expr) :
    settle ops e (.left operand op :: frames) = settle ops (.binary op operand e) frames := by
  rw [settle, if_pos hmem]

theorem mem_operations (op : BinaryOp) : op ∈ operations := by
  cases op <;> decide

theorem step_operand_left_of_mem {op : BinaryOp} (hmem : op ∈ BinaryOp.products) (operand : Expr)
    (t? : Option Token) :
    step limit ⟨done, .operand e (.left operand op :: frames) owner⟩ t? =
      step limit ⟨done, .operand (.binary op operand e) frames owner⟩ t? := by
  simp only [step, onOperand, settle_left_of_mem hmem, settle_left_of_mem (mem_operations op)]

/-- The next token goes on with neither a product nor a sum. -/
def Ended (ts : List Token) : Prop :=
  ts.head?.bind (Expr.operation? BinaryOp.products) = none ∧
    ts.head?.bind (Expr.operation? BinaryOp.sums) = none

theorem operation?_of_kind {ops : List BinaryOp} {t : Token} (h : t.kind ≠ .operator) :
    Expr.operation? ops t = none :=
  if_neg h

theorem ended_cons {t : Token} (h : t.kind ≠ .operator) (ts : List Token) : Ended (t :: ts) :=
  ⟨operation?_of_kind h, operation?_of_kind h⟩

theorem operation?_of_not_mem {ops : List BinaryOp} {op : BinaryOp} {t : Token}
    (hsign : Sign op t) (hmem : op ∉ ops) : Expr.operation? ops t = none := by
  rw [Expr.operation?_eq_none_iff]
  rintro ⟨other, hother, hsame⟩
  have hop := BinaryOp.ofSymbol?_eq_some_iff.mpr hsign.2
  rw [BinaryOp.ofSymbol?_eq_some_iff.mpr hsame.2] at hop
  cases hop
  exact hmem hother

theorem step_operand_left_of_not_product {ts : List Token}
    (hend : ts.head?.bind (Expr.operation? BinaryOp.products) = none) (op : BinaryOp)
    (operand : Expr) :
    step limit ⟨done, .operand e (.left operand op :: frames) owner⟩ ts.head? =
      step limit ⟨done, .operand (.binary op operand e) frames owner⟩ ts.head? := by
  simp only [step, onOperand, hend, settle_left_of_mem (mem_operations op)]

/-- The frame at the front, if there is one, is not completed by an operand. -/
def Settled (ops : List BinaryOp) : List Frame → Prop
  | .sign _ :: _ => False
  | .left _ op :: _ => op ∉ ops
  | _ => True

theorem Settled.settle_eq {ops : List BinaryOp} (h : Settled ops frames) (e : Expr) :
    settle ops e frames = (e, frames) := by
  cases frames with
  | nil => rfl
  | cons frame frames =>
      cases frame with
      | left operand op => exact if_neg h
      | sign op => exact absurd h id
      | parens => rfl
      | argument function earlier => rfl

theorem Settled.products (h : Settled operations frames) : Settled BinaryOp.products frames := by
  cases frames with
  | nil => trivial
  | cons frame frames =>
      cases frame with
      | left operand op => exact absurd (mem_operations op) h
      | sign op => exact h
      | parens => trivial
      | argument function earlier => trivial

theorem step_operand_product {t : Token} {op : BinaryOp}
    (hop : Expr.operation? BinaryOp.products t = some op)
    (hsettled : Settled BinaryOp.products frames) :
    step limit ⟨done, .operand e frames owner⟩ (some t) =
      .ok ⟨done, .factor (.left e op :: frames) owner⟩ := by
  simp only [step, onOperand, Option.bind_some, hop, hsettled.settle_eq e]

theorem step_operand_sum {t : Token} {op : BinaryOp}
    (hproduct : Expr.operation? BinaryOp.products t = none)
    (hop : Expr.operation? BinaryOp.sums t = some op) (hsettled : Settled operations frames) :
    step limit ⟨done, .operand e frames owner⟩ (some t) =
      .ok ⟨done, .factor (.left e op :: frames) owner⟩ := by
  simp only [step, onOperand, Option.bind_some, hproduct, hop, hsettled.settle_eq e]

theorem step_operand_of_ended {ts : List Token} (hend : Ended ts)
    (hsettled : Settled operations frames) :
    step limit ⟨done, .operand e frames owner⟩ ts.head? =
      onValue limit done e frames owner ts.head? := by
  simp only [step, onOperand, hend.1, hend.2, hsettled.settle_eq e]

@[simp] theorem levels_nil : levels [] = 0 := rfl

@[simp] theorem levels_left (operand : Expr) (op : BinaryOp) :
    levels (.left operand op :: frames) = levels frames := by
  simp [levels, Frame.level]

@[simp] theorem levels_sign (op : UnaryOp) : levels (.sign op :: frames) = levels frames + 1 := by
  simp [levels, Frame.level, Nat.add_comm]

@[simp] theorem levels_parens : levels (.parens :: frames) = levels frames + 1 := by
  simp [levels, Frame.level, Nat.add_comm]

@[simp] theorem levels_argument (function : String) (earlier : List Expr) :
    levels (.argument function earlier :: frames) = levels frames + 1 := by
  simp [levels, Frame.level, Nat.add_comm]

theorem enter_of_lt {opener : Token} {stage : Stage} (h : levels frames < limit) :
    enter limit done opener frames stage = .ok ⟨done, stage⟩ :=
  if_pos h

theorem enter_of_full {opener : Token} {stage : Stage} (h : levels frames = limit) :
    enter limit done opener frames stage = .error ⟨opener, .shallowerExpression⟩ :=
  if_neg (by omega)

/-! Where chains of operations end. -/

theorem joinFrom_read_end {ops : List BinaryOp} {operand : Phrase Expr} {left : Expr}
    {ts rest : List Token} (h : (Expr.joinFrom ops operand left).read ts = .ok (e, rest)) :
    rest.head?.bind (Expr.operation? ops) = none := by
  refine iterate_induction
    (motive := fun _ _ => rest.head?.bind (Expr.operation? ops) = none) ?_ ?_ h
  · intro ts hround
    simpa using (after?_eq_none hround).2
  · intro _ _ _ _ _ ih
    exact ih

theorem chain_read_end {ops : List BinaryOp} {operand : Phrase Expr} {ts rest : List Token}
    (h : (Expr.chain ops operand).read ts = .ok (e, rest)) :
    rest.head?.bind (Expr.operation? ops) = none := by
  rw [Expr.chain_eq, read_bind_eq_ok] at h
  obtain ⟨first, mid, _, h⟩ := h
  exact joinFrom_read_end h

/-- After a sum the last product has ended, too. -/
theorem sum_read_ended {factor : Phrase Expr} {ts rest : List Token}
    (h : (Expr.sum factor).read ts = .ok (e, rest)) : Ended rest := by
  refine ⟨?_, chain_read_end h⟩
  rw [Expr.sum, Expr.chain_eq, read_bind_eq_ok] at h
  obtain ⟨first, mid, hfirst, h⟩ := h
  refine iterate_induction
    (motive := fun _ ts => ts.head?.bind (Expr.operation? BinaryOp.products) = none →
      rest.head?.bind (Expr.operation? BinaryOp.products) = none) ?_ ?_ h (chain_read_end hfirst)
  · intro ts hround hend
    rwa [← (after?_eq_none hround).1]
  · intro left ts next mid hround ih _
    obtain ⟨t, us, op, rfl, _, hright⟩ := after?_eq_some hround
    obtain ⟨right, last, hright, hnext⟩ := read_bind_eq_ok.mp hright
    cases hnext
    exact ih (chain_read_end hright)

/-! Expressions. -/

/-- What is left of a run once an operand is complete. -/
def resume (limit : Nat) (done : List Statement) (frames : List Frame) (owner : Owner) (e : Expr)
    (ts : List Token) : Except ParseError Program :=
  run limit ⟨done, .operand e frames owner⟩ ts

/-- Reading a factor with so many levels left is running from the stage in which it is due. -/
def FactorRuns (limit : Nat) (done : List Statement) (owner : Owner) (n : Nat) : Prop :=
  ∀ frames ts, levels frames + n = limit →
    (Expr.factor n).andThen (resume limit done frames owner) ts =
      run limit ⟨done, .factor frames owner⟩ ts

theorem products_run {n : Nat} (hfactor : FactorRuns limit done owner n)
    (hlevels : levels frames + n = limit) (hsettled : Settled BinaryOp.products frames)
    (left : Expr) (ts : List Token) :
    (Expr.joinFrom BinaryOp.products (Expr.factor n) left).andThen
      (resume limit done frames owner) ts = resume limit done frames owner left ts := by
  induction hn : ts.length using Nat.strongRecOn generalizing left ts with
  | ind length ih =>
      cases ts with
      | nil => exact Expr.andThen_joinFrom_nil _ _ _
      | cons t us =>
          rw [Expr.andThen_joinFrom_cons]
          cases hop : Expr.operation? BinaryOp.products t with
          | none => rfl
          | some op =>
              have hmem := (Expr.operation?_eq_some_iff.mp hop).1
              have hright : ∀ right rest, (Expr.factor n).read us = .ok (right, rest) →
                  (Expr.joinFrom BinaryOp.products (Expr.factor n)
                    (.binary op left right)).andThen (resume limit done frames owner) rest =
                  resume limit done (.left left op :: frames) owner right rest := by
                intro right rest hread
                have hlength := (Expr.factor n).length_le hread
                rw [ih rest.length (by simp only [List.length_cons] at hn; omega) _ _ rfl]
                exact (run_congr (step_operand_left_of_mem hmem left _)).symm
              calc
                (Expr.factor n).andThen _ us =
                    (Expr.factor n).andThen
                      (resume limit done (.left left op :: frames) owner) us :=
                  andThen_congr hright
                _ = run limit ⟨done, .factor (.left left op :: frames) owner⟩ us :=
                  hfactor _ _ (by simpa using hlevels)
                _ = resume limit done frames owner left (t :: us) :=
                  (run_cons_of_ok (step_operand_product hop hsettled)).symm

theorem term_runs {n : Nat} (hfactor : FactorRuns limit done owner n)
    (hlevels : levels frames + n = limit) (hsettled : Settled BinaryOp.products frames)
    (ts : List Token) :
    (Expr.chain BinaryOp.products (Expr.factor n)).andThen (resume limit done frames owner) ts =
      run limit ⟨done, .factor frames owner⟩ ts := by
  rw [Expr.chain_eq, andThen_bind, ← hfactor frames ts hlevels]
  apply andThen_congr
  intro left rest _
  exact products_run hfactor hlevels hsettled left rest

theorem not_mem_products {op : BinaryOp} (h : op ∈ BinaryOp.sums) : op ∉ BinaryOp.products := by
  cases op <;> revert h <;> decide

theorem sums_run {n : Nat} (hfactor : FactorRuns limit done owner n)
    (hlevels : levels frames + n = limit) (hsettled : Settled operations frames)
    (left : Expr) (ts : List Token)
    (hend : ts.head?.bind (Expr.operation? BinaryOp.products) = none) :
    (Expr.joinFrom BinaryOp.sums (Expr.chain BinaryOp.products (Expr.factor n)) left).andThen
      (resume limit done frames owner) ts = resume limit done frames owner left ts := by
  induction hn : ts.length using Nat.strongRecOn generalizing left ts with
  | ind length ih =>
      cases ts with
      | nil => exact Expr.andThen_joinFrom_nil _ _ _
      | cons t us =>
          rw [Expr.andThen_joinFrom_cons]
          cases hop : Expr.operation? BinaryOp.sums t with
          | none => rfl
          | some op =>
              have hmem := (Expr.operation?_eq_some_iff.mp hop).1
              have hright : ∀ right rest,
                  (Expr.chain BinaryOp.products (Expr.factor n)).read us = .ok (right, rest) →
                  (Expr.joinFrom BinaryOp.sums (Expr.chain BinaryOp.products (Expr.factor n))
                    (.binary op left right)).andThen (resume limit done frames owner) rest =
                  resume limit done (.left left op :: frames) owner right rest := by
                intro right rest hread
                have hlength := Phrase.length_le _ hread
                have hrest := chain_read_end hread
                rw [ih rest.length (by simp only [List.length_cons] at hn; omega) _ _ hrest rfl]
                exact (run_congr (step_operand_left_of_not_product hrest op left)).symm
              have hopen : Settled BinaryOp.products (.left left op :: frames) :=
                not_mem_products hmem
              calc
                (Expr.chain BinaryOp.products (Expr.factor n)).andThen _ us =
                    (Expr.chain BinaryOp.products (Expr.factor n)).andThen
                      (resume limit done (.left left op :: frames) owner) us :=
                  andThen_congr hright
                _ = run limit ⟨done, .factor (.left left op :: frames) owner⟩ us :=
                  term_runs hfactor (by simpa using hlevels) hopen us
                _ = resume limit done frames owner left (t :: us) :=
                  (run_cons_of_ok (step_operand_sum hend hop hsettled)).symm

theorem sum_runs {n : Nat} (hfactor : FactorRuns limit done owner n) (frames : List Frame)
    (hlevels : levels frames + n = limit) (hsettled : Settled operations frames)
    (ts : List Token) :
    (Expr.sum (Expr.factor n)).andThen (resume limit done frames owner) ts =
      run limit ⟨done, .factor frames owner⟩ ts := by
  rw [Expr.sum, Expr.chain_eq, andThen_bind, ← term_runs hfactor hlevels hsettled.products ts]
  apply andThen_congr
  intro left rest hread
  exact sums_run hfactor hlevels hsettled left rest (chain_read_end hread)

/-! Brackets. -/

/-- A run asks for a token of its own text where the reader expects one. -/
theorem expect_runs {s s' : State} {kind : Token.Kind} {text : String}
    {next : Unit → List Token → Except ParseError Program} {ts : List Token}
    (hstep : step limit s ts.head? =
      if ts.head?.any (·.is kind text) then .ok s' else .error ⟨ts.head?, .symbol text⟩)
    (hnext : next () = run limit s') : (expect kind text).andThen next ts = run limit s ts := by
  cases ts with
  | nil =>
      rw [andThen_expect_nil, run]
      exact (congrArg (Except.map _) hstep).symm
  | cons t ts =>
      rw [andThen_expect_cons]
      by_cases his : t.is kind text
      · rw [if_pos his, hnext]
        exact (run_cons_of_ok (hstep.trans (if_pos his))).symm
      · rw [if_neg his]
        exact (run_cons_of_error (hstep.trans (if_neg his))).symm

theorem step_operand_parens (limit : Nat) (done : List Statement) (frames : List Frame)
    (owner : Owner) (e : Expr) {ts : List Token} (hend : Ended ts) :
    step limit ⟨done, .operand e (.parens :: frames) owner⟩ ts.head? =
      if ts.head?.any (·.is .punctuation ")") then .ok ⟨done, .operand e frames owner⟩
      else .error ⟨ts.head?, .symbol ")"⟩ :=
  step_operand_of_ended hend trivial

theorem parens_run {ts : List Token} (hend : Ended ts) (e : Expr) :
    (expect .punctuation ")").andThen (fun _ => resume limit done frames owner e) ts =
      resume limit done (.parens :: frames) owner e ts :=
  expect_runs (step_operand_parens limit done frames owner e hend) rfl

theorem step_operand_argument (limit : Nat) (done : List Statement) (frames : List Frame)
    (owner : Owner) (e : Expr) {ts : List Token} (hend : Ended ts) (function : String)
    (earlier : List Expr) :
    step limit ⟨done, .operand e (.argument function earlier :: frames) owner⟩ ts.head? =
      if ts.head?.any (·.is .punctuation ",") then
        .ok ⟨done, .factor (.argument function (e :: earlier) :: frames) owner⟩
      else if ts.head?.any (·.is .punctuation ")") then
        .ok ⟨done, .operand (.call function (e :: earlier).reverse) frames owner⟩
      else .error ⟨ts.head?, .symbol ")"⟩ :=
  step_operand_of_ended hend trivial

theorem arguments_run {n : Nat} (hfactor : FactorRuns limit done owner n) {function : String}
    (hlevels : levels frames + 1 + n = limit) (earlier : List Expr) (ts : List Token)
    (hend : Ended ts) (e : Expr) :
    (itemsFrom (fun _ => Expr.sum (Expr.factor n)) (e :: earlier)).andThen
      (fun args => (expect .punctuation ")").andThen fun _ =>
        resume limit done frames owner (.call function args.reverse)) ts =
      resume limit done (.argument function earlier :: frames) owner e ts := by
  induction hn : ts.length using Nat.strongRecOn generalizing earlier ts e with
  | ind length ih =>
      have hstep := step_operand_argument limit done frames owner e hend function earlier
      cases ts with
      | nil =>
          rw [andThen_itemsFrom_nil]
          exact expect_runs (hstep.trans (if_neg Bool.false_ne_true)) rfl
      | cons t us =>
          rw [andThen_itemsFrom_cons]
          by_cases hcomma : t.is .punctuation ","
          · have hnext : ∀ arg rest, (Expr.sum (Expr.factor n)).read us = .ok (arg, rest) →
                (itemsFrom (fun _ => Expr.sum (Expr.factor n)) (arg :: e :: earlier)).andThen
                  (fun args => (expect .punctuation ")").andThen fun _ =>
                    resume limit done frames owner (.call function args.reverse)) rest =
                resume limit done (.argument function (e :: earlier) :: frames) owner arg rest := by
              intro arg rest hread
              have hlength := Phrase.length_le _ hread
              exact ih rest.length (by simp only [List.length_cons] at hn; omega) _ _
                (sum_read_ended hread) _ rfl
            rw [if_pos hcomma, andThen_congr hnext,
              sum_runs hfactor (.argument function (e :: earlier) :: frames)
                (by simpa using hlevels) trivial]
            exact (run_cons_of_ok (hstep.trans (if_pos hcomma))).symm
          · rw [if_neg hcomma]
            exact expect_runs (hstep.trans (if_neg hcomma)) rfl

theorem call_runs {n : Nat} (hfactor : FactorRuns limit done owner n) (function : String)
    (hlevels : levels frames + 1 + n = limit) (ts : List Token) :
    (listed fun _ => Expr.sum (Expr.factor n)).andThen
      (fun args => resume limit done frames owner (.call function args)) ts =
      run limit ⟨done, .opened function frames owner⟩ ts := by
  have hstep := step_opened limit done function frames owner ts.head?
  rw [andThen_listed]
  by_cases hclose : ts.head?.any (·.is .punctuation ")")
  · rw [if_pos hclose]
    cases ts with
    | nil => cases hclose
    | cons t ts => exact (run_cons_of_ok (hstep.trans (if_pos hclose))).symm
  · rw [if_neg hclose, itemsReversed_eq, andThen_bind, run_congr (hstep.trans (if_neg hclose)),
      ← sum_runs hfactor (.argument function [] :: frames) (by simpa using hlevels) trivial]
    apply andThen_congr
    intro arg rest hread
    exact arguments_run hfactor hlevels [] rest (sum_read_ended hread) arg

/-! Factors. -/

theorem run_cons (s : State) (t : Token) (ts : List Token) :
    run limit s (t :: ts) = (step limit s (some t)).bind fun s => run limit s ts := rfl

/-- The reader of the factors one level further in, where a level is left. -/
def InnerRuns (limit : Nat) (done : List Statement) (owner : Owner) :
    Nat → Option (Phrase Expr) → Prop
  | 0, inner => inner = none
  | n + 1, inner => inner = some (Expr.factor n) ∧ FactorRuns limit done owner n

theorem deeper_runs {n : Nat} {inner : Option (Phrase Expr)}
    (hinner : InnerRuns limit done owner n inner) (hlevels : levels frames + n = limit)
    {body : Phrase Expr → Phrase Expr} {stage : Stage} {us vs : List Token}
    (hbody : ∀ m, n = m + 1 → FactorRuns limit done owner m →
      (body (Expr.factor m)).andThen (resume limit done frames owner) us =
        run limit ⟨done, stage⟩ vs) (opener : Token) :
    (Expr.deeper opener inner body).andThen (resume limit done frames owner) us =
      (enter limit done opener frames stage).bind fun s => run limit s vs := by
  cases n with
  | zero =>
      rw [enter_of_full (by omega), show inner = none from hinner]
      rfl
  | succ m =>
      obtain ⟨rfl, hfactor⟩ := hinner
      rw [enter_of_lt (by omega)]
      exact hbody m rfl hfactor

theorem name_runs {n : Nat} {inner : Option (Phrase Expr)}
    (hinner : InnerRuns limit done owner n inner) (hlevels : levels frames + n = limit)
    (t : Token) (us : List Token) :
    (if us.head?.any (·.is .punctuation "(") then
      (Expr.deeper t inner fun factor =>
        .call t.text <$> parenthesised fun _ => Expr.sum factor).andThen
          (resume limit done frames owner) us
    else resume limit done frames owner (.var t.text) us) =
      run limit ⟨done, .name t frames owner⟩ us := by
  by_cases hopen : us.head?.any (·.is .punctuation "(")
  · rw [if_pos hopen]
    cases us with
    | nil => cases hopen
    | cons u vs =>
        have hu : u.is .punctuation "(" := hopen
        rw [run_cons, step_name, Option.any_some, if_pos hu]
        apply deeper_runs hinner hlevels
        intro m hm hfactor
        rw [andThen_map, parenthesised_eq, andThen_bind, andThen_expect_cons, if_pos hu]
        exact call_runs hfactor t.text (by omega) vs
  · have hstep := step_name limit done t frames owner us.head?
    rw [if_neg hopen] at hstep ⊢
    exact (run_congr hstep).symm

theorem factorWith_runs {n : Nat} {inner : Option (Phrase Expr)}
    (hinner : InnerRuns limit done owner n inner) (hlevels : levels frames + n = limit)
    (ts : List Token) :
    (Expr.factorWith inner).andThen (resume limit done frames owner) ts =
      run limit ⟨done, .factor frames owner⟩ ts := by
  cases ts with
  | nil =>
      rw [Expr.andThen_factorWith_nil]
      rfl
  | cons t us =>
      rw [Expr.andThen_factorWith_cons, run_cons, step_factor_some]
      cases t.kind with
      | integer => rfl
      | float => rfl
      | identifier => exact name_runs hinner hlevels t us
      | operator =>
          cases UnaryOp.ofSymbol? t.text with
          | none => rfl
          | some op =>
              apply deeper_runs hinner hlevels
              intro m hm hfactor
              have hsign : resume limit done (.sign op :: frames) owner =
                  fun e => resume limit done frames owner (.unary op e) := by
                funext e ts
                exact run_operand_sign op ts
              rw [andThen_map, ← hsign]
              exact hfactor _ us (by rw [levels_sign]; omega)
      | punctuation =>
          by_cases htext : t.text = "("
          · simp only [htext, if_true]
            apply deeper_runs hinner hlevels
            intro m hm hfactor
            rw [andThen_bind, ← sum_runs hfactor (.parens :: frames)
              (by rw [levels_parens]; omega) trivial]
            apply andThen_congr
            intro e rest hread
            simp only [andThen_bind, andThen_pure]
            exact parens_run (sum_read_ended hread) e
          · simp only [htext, if_false]
            rfl
      | keyword => rfl
      | string => rfl

theorem factor_runs (limit : Nat) (done : List Statement) (owner : Owner) (n : Nat) :
    FactorRuns limit done owner n := by
  induction n with
  | zero =>
      intro frames ts hlevels
      exact factorWith_runs (n := 0) rfl hlevels ts
  | succ n ih =>
      intro frames ts hlevels
      exact factorWith_runs (n := n + 1) ⟨rfl, ih⟩ hlevels ts

theorem phrase_runs (limit : Nat) (done : List Statement) (owner : Owner) (ts : List Token) :
    (Expr.phrase limit).andThen (resume limit done [] owner) ts =
      run limit ⟨done, .factor [] owner⟩ ts :=
  sum_runs (factor_runs limit done owner limit) [] (Nat.zero_add limit) trivial ts

/-! Statements. -/

theorem step_operand_nil (limit : Nat) (done : List Statement) (owner : Owner) (e : Expr)
    {ts : List Token} (hend : Ended ts) :
    step limit ⟨done, .operand e [] owner⟩ ts.head? = onValue limit done e [] owner ts.head? :=
  step_operand_of_ended hend trivial

theorem phrase_read_ended {n : Nat} {ts rest : List Token}
    (h : (Expr.phrase n).read ts = .ok (e, rest)) : Ended rest :=
  sum_read_ended h

theorem returns_run (name : String) (params : List String) (body : List Statement)
    (ts : List Token) :
    (Statement.returnsFrom limit body).andThen
      (fun body => run limit ⟨.definition name params body.reverse :: done, .start⟩) ts =
      run limit ⟨done, .body name params body⟩ ts := by
  induction hn : ts.length using Nat.strongRecOn generalizing body ts with
  | ind length ih =>
      cases ts with
      | nil =>
          rw [Statement.andThen_returnsFrom_nil]
          rfl
      | cons t us =>
          rw [Statement.andThen_returnsFrom_cons]
          by_cases hreturn : t.is .keyword "return"
          · have hstep := step_body limit done name params body (some t)
            rw [if_pos hreturn, run_cons_of_ok (hstep.trans (if_pos hreturn)), ← phrase_runs]
            apply andThen_congr
            intro e rest hread
            have hlength := Phrase.length_le _ hread
            rw [ih rest.length (by simp only [List.length_cons] at hn; omega) _ _ rfl]
            exact (run_congr (step_operand_nil _ _ _ _ (phrase_read_ended hread))).symm
          · have hstep := step_body limit done name params body (some t)
            rw [if_neg hreturn]
            exact (run_congr (hstep.trans (if_neg hreturn))).symm

theorem parameter_runs (name : String) (params : List String) (ts : List Token) :
    (Statement.parameter params).andThen
      (fun param => run limit ⟨done, .moreParameters name (param :: params)⟩) ts =
      run limit ⟨done, .parameter name params⟩ ts := by
  rw [Statement.parameter, andThen_bind]
  cases ts with
  | nil => rfl
  | cons t us =>
      rw [andThen_take_cons, run_cons, step_parameter_some]
      by_cases hkind : t.kind = .identifier
      · rw [if_pos hkind, if_pos hkind]
        by_cases hmem : t.text ∈ params
        · simp only [if_pos hmem]
          rfl
        · simp only [if_neg hmem, andThen_pure]
          rfl
      · rw [if_neg hkind, if_neg hkind]
        rfl

theorem moreParameters_run (name : String) (params : List String)
    {next : List String → List Token → Except ParseError Program}
    (hnext : ∀ params, next params = run limit ⟨done, .colon name params.reverse⟩)
    (ts : List Token) :
    (itemsFrom Statement.parameter params).andThen
      (fun params => (expect .punctuation ")").andThen fun _ => next params.reverse) ts =
      run limit ⟨done, .moreParameters name params⟩ ts := by
  induction hn : ts.length using Nat.strongRecOn generalizing params ts with
  | ind length ih =>
      have hstep := step_moreParameters limit done name params ts.head?
      have hclose : next params.reverse = run limit ⟨done, .colon name params⟩ := by
        rw [hnext, List.reverse_reverse]
      cases ts with
      | nil =>
          rw [andThen_itemsFrom_nil]
          exact expect_runs (hstep.trans (if_neg Bool.false_ne_true)) hclose
      | cons t us =>
          rw [andThen_itemsFrom_cons]
          by_cases hcomma : t.is .punctuation ","
          · have hmore : ∀ param rest, (Statement.parameter params).read us = .ok (param, rest) →
                (itemsFrom Statement.parameter (param :: params)).andThen
                  (fun params => (expect .punctuation ")").andThen fun _ =>
                    next params.reverse) rest =
                run limit ⟨done, .moreParameters name (param :: params)⟩ rest := by
              intro param rest hread
              have hlength := Phrase.length_le _ hread
              exact ih rest.length (by simp only [List.length_cons] at hn; omega) _ _ rfl
            rw [if_pos hcomma, andThen_congr hmore, run_cons_of_ok (hstep.trans (if_pos hcomma))]
            exact parameter_runs name params us
          · rw [if_neg hcomma]
            exact expect_runs (hstep.trans (if_neg hcomma)) hclose

theorem parameters_run (name : String)
    {next : List String → List Token → Except ParseError Program}
    (hnext : ∀ params, next params = run limit ⟨done, .colon name params.reverse⟩)
    (ts : List Token) :
    (listed Statement.parameter).andThen next ts =
      run limit ⟨done, .firstParameter name⟩ ts := by
  have hstep := step_firstParameter limit done name ts.head?
  rw [andThen_listed]
  by_cases hclose : ts.head?.any (·.is .punctuation ")")
  · rw [if_pos hclose, hnext]
    cases ts with
    | nil => cases hclose
    | cons t ts => exact (run_cons_of_ok (hstep.trans (if_pos hclose))).symm
  · rw [if_neg hclose, itemsReversed_eq, andThen_bind, run_congr (hstep.trans (if_neg hclose)),
      ← parameter_runs]
    apply andThen_congr
    intro param rest _
    exact moreParameters_run name [param] hnext rest

theorem colon_run (name : String) (params : List String) (ts : List Token) :
    (expect .punctuation ":").andThen
      (fun _ => (Statement.body limit).andThen fun body =>
        run limit ⟨.definition name params body :: done, .start⟩) ts =
      run limit ⟨done, .colon name params.reverse⟩ ts := by
  apply expect_runs (step_colon limit done name params.reverse ts.head?)
  funext us
  rw [Statement.body_eq, andThen_map, returns_run, List.reverse_reverse]

theorem openParameters_run (name : String) (ts : List Token) :
    (parenthesised Statement.parameter).andThen
      (fun params => (expect .punctuation ":").andThen fun _ =>
        (Statement.body limit).andThen fun body =>
          run limit ⟨.definition name params body :: done, .start⟩) ts =
      run limit ⟨done, .openParameters name⟩ ts := by
  rw [parenthesised_eq, andThen_bind]
  apply expect_runs (step_openParameters limit done name ts.head?)
  funext us
  exact parameters_run name (fun params => funext (colon_run name params)) us

theorem definition_runs {t : Token} (hdef : t.is .keyword "def") (us : List Token) :
    (Statement.definitionPhrase limit).andThen (fun s => run limit ⟨s :: done, .start⟩) (t :: us) =
      run limit ⟨done, .start⟩ (t :: us) := by
  have hstart : step limit ⟨done, .start⟩ (some t) = .ok ⟨done, .functionName⟩ := if_pos hdef
  rw [Statement.definitionPhrase, andThen_bind, andThen_expect_cons, if_pos hdef,
    run_cons_of_ok hstart, andThen_bind]
  cases us with
  | nil => rfl
  | cons u vs =>
      rw [andThen_identifier_cons, run_cons, step_functionName_some]
      by_cases hkind : u.kind = .identifier
      · rw [if_pos hkind, if_pos hkind]
        simp only [andThen_bind, andThen_map]
        exact openParameters_run u.text vs
      · rw [if_neg hkind, if_neg hkind]
        rfl

theorem value_runs
    (howner : ∀ e t?,
      onValue limit done e [] owner t? = onStart limit (owner.statement e :: done) t?)
    (ts : List Token) :
    (Expr.phrase limit).andThen (fun e => run limit ⟨owner.statement e :: done, .start⟩) ts =
      run limit ⟨done, .factor [] owner⟩ ts := by
  rw [← phrase_runs]
  apply andThen_congr
  intro e rest hread
  have hstep := step_operand_nil limit done owner e (phrase_read_ended hread)
  exact (run_congr (hstep.trans (howner e _))).symm

theorem run_start_of_identifier {t : Token} (hkind : t.kind = .identifier) (us : List Token) :
    run limit ⟨done, .start⟩ (t :: us) = run limit ⟨done, .named t⟩ us := by
  have hdef : ¬ t.is .keyword "def" := by simp [Token.is_iff, hkind]
  have hstep : step limit ⟨done, .start⟩ (some t) = .ok ⟨done, .named t⟩ :=
    (if_neg hdef).trans (if_pos hkind)
  exact run_cons_of_ok hstep

theorem run_start_of_name {t : Token} (hkind : t.kind = .identifier) {us : List Token}
    (hsign : ¬ us.head?.any (·.is .operator "=")) :
    run limit ⟨done, .start⟩ (t :: us) = run limit ⟨done, .factor [] .expression⟩ (t :: us) := by
  have hnamed := step_named limit done t us.head?
  have hfactor : step limit ⟨done, .factor [] .expression⟩ (some t) =
      .ok ⟨done, .name t [] .expression⟩ := by
    rw [step_factor_some, hkind]
  rw [run_start_of_identifier hkind, run_congr (hnamed.trans (if_neg hsign)),
    run_cons_of_ok hfactor]

/-- An expression that is a statement begins where no definition and no assignment does. -/
theorem run_start_eq_factor {t : Token} {us : List Token} (hdef : ¬ t.is .keyword "def")
    (htarget : Statement.target? (t :: us) = none) :
    run limit ⟨done, .start⟩ (t :: us) = run limit ⟨done, .factor [] .expression⟩ (t :: us) := by
  by_cases hkind : t.kind = .identifier
  · apply run_start_of_name hkind
    intro hsign
    cases us with
    | nil => cases hsign
    | cons u vs => exact Statement.target?_eq_none_iff.mp htarget ⟨t, u, vs, rfl, hkind, hsign⟩
  · exact run_congr ((if_neg hdef).trans (if_neg hkind))

theorem statement_runs (t : Token) (us : List Token) :
    (Statement.phrase limit).andThen (fun s => run limit ⟨s :: done, .start⟩) (t :: us) =
      run limit ⟨done, .start⟩ (t :: us) := by
  rw [Statement.phrase, andThen_ahead, List.head?_cons, Option.any_some]
  by_cases hdef : t.is .keyword "def"
  · rw [if_pos hdef]
    exact definition_runs hdef us
  · rw [if_neg hdef]
    cases htarget : Statement.target? (t :: us) with
    | none =>
        rw [run_start_eq_factor hdef htarget, ← value_runs fun _ _ => rfl]
        exact congrFun (andThen_map _ _ _) _
    | some target =>
        obtain ⟨t, u, vs, hcons, hkind, hsign, rfl⟩ := Statement.target?_eq_some htarget
        cases hcons
        have hnamed := step_named limit done t (some u)
        rw [run_start_of_identifier hkind, run_cons_of_ok (hnamed.trans (if_pos hsign)),
          ← value_runs fun _ _ => rfl]
        simp only [Statement.assignmentPhrase, andThen_bind, andThen_skip, andThen_map]
        rfl

/-! Programs. -/

theorem statements_run (limit : Nat) (done : List Statement) (ts : List Token) :
    (Program.statementsFrom limit done).andThen (fun done _ => .ok ⟨done.reverse⟩) ts =
      run limit ⟨done, .start⟩ ts := by
  induction hn : ts.length using Nat.strongRecOn generalizing done ts with
  | ind length ih =>
      cases ts with
      | nil =>
          rw [Program.andThen_statementsFrom_nil]
          rfl
      | cons t us =>
          rw [Program.andThen_statementsFrom_cons, ← statement_runs]
          apply andThen_congr
          intro s rest hread
          have hlength := Statement.phrase_consumes limit _ _ _ hread
          exact ih rest.length (by omega) _ _ rfl

/-- The program of a token list, or the error in it, is the outcome of the machine's run. -/
theorem ofTokensWithin_eq_run (limit : Nat) (ts : List Token) :
    Program.ofTokensWithin limit ts = run limit ⟨[], .start⟩ ts := by
  rw [Program.ofTokensWithin_eq, statements_run]

end ExprFront.Machine
