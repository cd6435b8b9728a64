import ExprFront.Proofs.Composition

/-!
Chains of operations. Two stacks, one of operands and one of operators, put the tree of a chain
together by precedence, and so does folding its products first and then its sums. The frames of the
machine are those two stacks, paired.
-/

namespace ExprFront

open Token Grammar

/-! Two stacks. -/

/-- Operators of greater precedence bind tighter. -/
def BinaryOp.precedence : BinaryOp → Nat
  | add | subtract => 1
  | multiply | divide => 2

/-- The operands and the operators that are still to be joined, the latest first. -/
structure Yard where
  operands : List Expr
  operators : List BinaryOp

namespace Yard

/-- Applies the operators on top that bind at least so tight. -/
def reduced (p : Nat) : List Expr → List BinaryOp → Yard
  | right :: left :: operands, op :: operators =>
      if p ≤ op.precedence then reduced p (.binary op left right :: operands) operators
      else ⟨right :: left :: operands, op :: operators⟩
  | operands, operators => ⟨operands, operators⟩

def reduce (p : Nat) (y : Yard) : Yard :=
  reduced p y.operands y.operators

/-- Puts an operator and its right operand on the stacks. Operators of the same precedence that are
there already are applied before, and so join from the left. -/
def shift (y : Yard) (op : BinaryOp) (right : Expr) : Yard :=
  ⟨right :: (y.reduce op.precedence).operands, op :: (y.reduce op.precedence).operators⟩

def shiftAll (y : Yard) (others : List (BinaryOp × Expr)) : Yard :=
  others.foldl (fun y other => y.shift other.1 other.2) y

/-- The one operand that is left once every operator is applied. -/
def finish (y : Yard) : Option Expr :=
  match (y.reduce 0).operands with
  | [e] => some e
  | _ => none

end Yard

/-- Reads a chain of operations by the precedence of its operators. -/
def shuntingYard (first : Expr) (others : List (BinaryOp × Expr)) : Option Expr :=
  (Yard.mk [first] []).shiftAll others |>.finish

/-! Products and sums. -/

/-- The products up to the first sum, and each sum with its operand and the products after it. -/
def productRuns : List (BinaryOp × Expr) →
    List (BinaryOp × Expr) × List (BinaryOp × Expr × List (BinaryOp × Expr))
  | [] => ([], [])
  | (op, e) :: others =>
      if op ∈ BinaryOp.products then
        ((op, e) :: (productRuns others).1, (productRuns others).2)
      else ([], (op, e, (productRuns others).1) :: (productRuns others).2)

/-- Joins sums from the left, each operand with its products first. -/
def joinedSums (left : Expr) (sums : List (BinaryOp × Expr × List (BinaryOp × Expr))) : Expr :=
  joined left (sums.map fun s => (s.1, joined s.2.1 s.2.2))

/-- Joins from the left each run of products, as long as it goes, and then the sums. -/
def sumOfProducts (first : Expr) (others : List (BinaryOp × Expr)) : Expr :=
  joinedSums (joined first (productRuns others).1) (productRuns others).2

theorem productRuns_of_product {op : BinaryOp} (h : op ∈ BinaryOp.products) (e : Expr)
    (others : List (BinaryOp × Expr)) :
    productRuns ((op, e) :: others) =
      ((op, e) :: (productRuns others).1, (productRuns others).2) :=
  if_pos h

theorem productRuns_of_not_product {op : BinaryOp} (h : op ∉ BinaryOp.products) (e : Expr)
    (others : List (BinaryOp × Expr)) :
    productRuns ((op, e) :: others) =
      ([], (op, e, (productRuns others).1) :: (productRuns others).2) :=
  if_neg h

namespace BinaryOp

theorem precedence_of_product {op : BinaryOp} (h : op ∈ products) : op.precedence = 2 := by
  cases op <;> revert h <;> decide

theorem precedence_of_not_product {op : BinaryOp} (h : op ∉ products) : op.precedence = 1 := by
  cases op <;> revert h <;> decide

theorem precedence_le_two (op : BinaryOp) : op.precedence ≤ 2 := by
  cases op <;> decide

end BinaryOp

namespace Yard

variable {op : BinaryOp} {others : List (BinaryOp × Expr)}

theorem reduce_of_le {p : Nat} (h : p ≤ op.precedence) (right left : Expr) (operands : List Expr)
    (operators : List BinaryOp) :
    reduce p ⟨right :: left :: operands, op :: operators⟩ =
      reduce p ⟨.binary op left right :: operands, operators⟩ :=
  if_pos h

theorem reduce_of_lt {p : Nat} (h : op.precedence < p) (right left : Expr) (operands : List Expr)
    (operators : List BinaryOp) :
    reduce p ⟨right :: left :: operands, op :: operators⟩ =
      ⟨right :: left :: operands, op :: operators⟩ :=
  if_neg (Nat.not_le.mpr h)

theorem shiftAll_cons (y : Yard) (e : Expr) :
    y.shiftAll ((op, e) :: others) = (y.shift op e).shiftAll others := rfl

/-- A product on top is applied before anything else, whatever comes next. -/
theorem finish_product (h : op ∈ BinaryOp.products) (right left : Expr) (operands : List Expr)
    (operators : List BinaryOp) :
    (shiftAll ⟨right :: left :: operands, op :: operators⟩ others).finish =
      (shiftAll ⟨.binary op left right :: operands, operators⟩ others).finish := by
  have hreduce {p : Nat} (hp : p ≤ 2) :
      reduce p ⟨right :: left :: operands, op :: operators⟩ =
        reduce p ⟨.binary op left right :: operands, operators⟩ :=
    reduce_of_le (by rwa [BinaryOp.precedence_of_product h]) right left operands operators
  cases others with
  | nil =>
      simp only [shiftAll, List.foldl_nil, finish, hreduce (Nat.zero_le 2)]
  | cons other others =>
      simp only [shiftAll, List.foldl_cons, shift, hreduce (BinaryOp.precedence_le_two other.1)]

/-- The operand under way has no operator below it, or one sum. -/
theorem finish_eq (others : List (BinaryOp × Expr)) (e : Expr) :
    (shiftAll ⟨[e], []⟩ others).finish = some (sumOfProducts e others) ∧
      ∀ sum ∉ BinaryOp.products, ∀ left, (shiftAll ⟨[e, left], [sum]⟩ others).finish =
        some (joinedSums (.binary sum left (joined e (productRuns others).1))
          (productRuns others).2) := by
  induction others generalizing e with
  | nil => exact ⟨rfl, fun sum _ left => rfl⟩
  | cons other others ih =>
      obtain ⟨op, right⟩ := other
      simp only [shiftAll_cons, shift]
      by_cases hop : op ∈ BinaryOp.products
      · rw [sumOfProducts, productRuns_of_product hop, BinaryOp.precedence_of_product hop]
        constructor
        · exact (finish_product hop right e [] []).trans (ih (.binary op e right)).1
        · intro sum hsum left
          rw [reduce_of_lt (by rw [BinaryOp.precedence_of_not_product hsum]; decide)]
          exact (finish_product hop right e [left] [sum]).trans
            ((ih (.binary op e right)).2 sum hsum left)
      · rw [sumOfProducts, productRuns_of_not_product hop, BinaryOp.precedence_of_not_product hop]
        constructor
        · exact (ih right).2 op hop e
        · intro sum hsum left
          rw [reduce_of_le (Nat.le_of_eq (BinaryOp.precedence_of_not_product hsum).symm)]
          exact (ih right).2 op hop (.binary sum left e)

end Yard

/-- Precedence and the order of products and sums give the same tree. -/
theorem shuntingYard_eq (first : Expr) (others : List (BinaryOp × Expr)) :
    shuntingYard first others = some (sumOfProducts first others) :=
  (Yard.finish_eq others first).1

/-! Chains as tokens. -/

/-- The operands of a chain: literals, names and expressions in parentheses. -/
inductive Operand : List Token → Expr → Prop
  | integer {t : Token} (h : t.kind = .integer) : Operand [t] (.number t.text false)
  | float {t : Token} (h : t.kind = .float) : Operand [t] (.number t.text true)
  | name {t : Token} (h : t.kind = .identifier) : Operand [t] (.var t.text)
  | parens {u : Fragment} {ts : List Token} (h : Enclosed u.tokens ts)
      (hlevels : u.nesting + 1 ≤ Program.maxNesting) : Operand ts u.value

/-- Operators, each with its right operand. -/
inductive Operations : List Token → List (BinaryOp × Expr) → Prop
  | none : Operations [] []
  | more {t : Token} {op : BinaryOp} {us ts : List Token} {e : Expr}
      {others : List (BinaryOp × Expr)} (hop : t.is .operator op.symbol) (he : Operand us e)
      (h : Operations ts others) : Operations (t :: (us ++ ts)) ((op, e) :: others)

theorem Operations.notOpen {ts : List Token} {others : List (BinaryOp × Expr)}
    (h : Operations ts others) : Machine.NotOpen ts := by
  cases h with
  | none => nofun
  | more hop _ _ => exact Machine.notOpen_cons (is_iff_key.mp hop) (by simp) _

theorem Operations.notEquals {ts : List Token} {others : List (BinaryOp × Expr)}
    (h : Operations ts others) : ¬ ts.head?.any (·.is .operator "=") := by
  cases h with
  | none => nofun
  | @more t op us ts e others hop _ _ =>
      intro hequals
      have hsymbol : op.symbol = "=" := (is_iff.mp hop).2.symm.trans (is_iff.mp hequals).2
      revert hsymbol
      cases op <;> decide

namespace Machine

variable {limit : Nat} {done : List Statement} {frames : List Frame} {owner : Owner}
variable {rest : List Token} {others : List (BinaryOp × Expr)}

theorem operand_taken {us : List Token} {e : Expr} (h : Operand us e) (hlevels : levels frames = 0)
    (hrest : NotOpen rest) :
    run Program.maxNesting ⟨done, .factor frames owner⟩ (us ++ rest) =
      run Program.maxNesting ⟨done, .operand e frames owner⟩ rest := by
  cases h with
  | integer hkind => exact run_cons_of_ok (step_factor_of_number (key_of_kind hkind))
  | float hkind => exact run_cons_of_ok (step_factor_of_number (key_of_kind hkind))
  | name hkind =>
      exact (run_cons_of_ok (step_factor_of_name (key_of_kind hkind))).trans
        (run_name_of_notOpen hrest _)
  | parens henclosed hfits =>
      apply (parens_taken henclosed rest).1
      omega

theorem run_start_of_operand {us : List Token} {e : Expr} (h : Operand us e)
    (hrest : ¬ rest.head?.any (·.is .operator "=")) :
    run limit ⟨done, .start⟩ (us ++ rest) =
      run limit ⟨done, .factor [] .expression⟩ (us ++ rest) := by
  cases h with
  | integer hkind => exact run_start_of_key (key_of_kind hkind) (by simp) (by simp) rest
  | float hkind => exact run_start_of_key (key_of_kind hkind) (by simp) (by simp) rest
  | name hkind => exact run_start_of_name hkind hrest
  | parens henclosed _ => exact run_start_of_enclosed henclosed rest

/-! The two stacks of the machine. -/

/-- Left operands with their operators, as frames. -/
def pending (s : List (Expr × BinaryOp)) : List Frame :=
  s.map fun left => .left left.1 left.2

/-- The operand under way and those left of it on one stack, and their operators on the other. -/
def yard (e : Expr) (s : List (Expr × BinaryOp)) : Yard :=
  ⟨e :: s.map (·.1), s.map (·.2)⟩

theorem levels_pending (s : List (Expr × BinaryOp)) : levels (pending s) = 0 := by
  induction s with
  | nil => rfl
  | cons left s ih => exact (levels_left left.1 left.2).trans ih

/-- Settling operations is applying operators of at least some precedence. -/
theorem settle_pending {ops : List BinaryOp} {p : Nat} (hops : ∀ op, op ∈ ops ↔ p ≤ op.precedence)
    (e : Expr) (s : List (Expr × BinaryOp)) :
    ∃ e' s', settle ops e (pending s) = (e', pending s') ∧ (yard e s).reduce p = yard e' s' := by
  induction s generalizing e with
  | nil => exact ⟨e, [], rfl, rfl⟩
  | cons left s ih =>
      obtain ⟨left, op⟩ := left
      by_cases hmem : op ∈ ops
      · obtain ⟨e', s', hsettle, hreduce⟩ := ih (.binary op left e)
        exact ⟨e', s', (settle_left_of_mem hmem left).trans hsettle,
          (Yard.reduce_of_le ((hops op).mp hmem) e left _ _).trans hreduce⟩
      · have hlt : op.precedence < p := Nat.not_le.mp (mt (hops op).mpr hmem)
        exact ⟨e, (left, op) :: s, if_neg hmem, Yard.reduce_of_lt hlt e left _ _⟩

theorem step_operand_settle (limit : Nat) (done : List Statement) (owner : Owner) {t : Token}
    {op : BinaryOp} (hop : t.key = (.operator, op.symbol)) (e : Expr) (frames : List Frame) :
    ∃ ops, (∀ other, other ∈ ops ↔ op.precedence ≤ other.precedence) ∧
      step limit ⟨done, .operand e frames owner⟩ (some t) = .ok ⟨done,
        .factor (.left (settle ops e frames).1 op :: (settle ops e frames).2) owner⟩ := by
  have hsign : Sign op t := Prod.mk.inj hop
  by_cases hmem : op ∈ BinaryOp.products
  · have hproduct := Expr.operation?_eq_some_iff.mpr ⟨hmem, hsign⟩
    refine ⟨BinaryOp.products, ?_, ?_⟩
    · intro other
      rw [BinaryOp.precedence_of_product hmem]
      cases other <;> decide
    · simp only [step, onOperand, Option.bind_some, hproduct]
  · have hsums : op ∈ BinaryOp.sums := by
      cases op <;> revert hmem <;> decide
    have hsum := Expr.operation?_eq_some_iff.mpr ⟨hsums, hsign⟩
    refine ⟨operations, ?_, ?_⟩
    · intro other
      rw [BinaryOp.precedence_of_not_product hmem]
      cases other <;> decide
    · simp only [step, onOperand, Option.bind_some, operation?_of_not_mem hsign hmem, hsum]

/-- A step on an operator shifts it. -/
theorem step_operand_shift {t : Token} {op : BinaryOp} (hop : t.key = (.operator, op.symbol))
    (e : Expr) (s : List (Expr × BinaryOp)) :
    ∃ s', step limit ⟨done, .operand e (pending s) owner⟩ (some t) =
        .ok ⟨done, .factor (pending s') owner⟩ ∧
      ∀ right, (yard e s).shift op right = yard right s' := by
  obtain ⟨ops, hops, hstep⟩ := step_operand_settle limit done owner hop e (pending s)
  obtain ⟨e', s', hsettle, hreduce⟩ := settle_pending hops e s
  rw [hsettle] at hstep
  refine ⟨(e', op) :: s', hstep, ?_⟩
  intro right
  rw [Yard.shift, hreduce]
  rfl

theorem run_finish (e : Expr) (s : List (Expr × BinaryOp)) (hrest : Ended rest) :
    ∃ tree, (yard e s).finish = some tree ∧
      run limit ⟨done, .operand e (pending s) owner⟩ rest =
        run limit ⟨done, .operand tree [] owner⟩ rest := by
  induction s generalizing e with
  | nil => exact ⟨e, rfl, rfl⟩
  | cons left s ih =>
      obtain ⟨left, op⟩ := left
      obtain ⟨tree, hfinish, hrun⟩ := ih (.binary op left e)
      have hreduce : (yard e ((left, op) :: s)).reduce 0 = (yard (.binary op left e) s).reduce 0 :=
        Yard.reduce_of_le (Nat.zero_le _) e left _ _
      refine ⟨tree, ?_, ?_⟩
      · rw [Yard.finish, hreduce]
        exact hfinish
      · exact (run_congr (step_operand_left_of_not_product hrest.1 op left)).trans hrun

/-- What the run comes to is what the two stacks come to. -/
theorem operations_taken (done : List Statement) (owner : Owner) {ts : List Token}
    (h : Operations ts others) (e : Expr) (s : List (Expr × BinaryOp)) :
    ∃ tree, ((yard e s).shiftAll others).finish = some tree ∧
      run Program.maxNesting ⟨done, .operand e (pending s) owner⟩ ts =
        run Program.maxNesting ⟨done, .operand tree [] owner⟩ [] := by
  induction h generalizing e s with
  | none => exact run_finish e s ⟨rfl, rfl⟩
  | @more t op us ts right others hop hright h ih =>
      obtain ⟨s', hstep, hshift⟩ := step_operand_shift (is_iff_key.mp hop) e s
      obtain ⟨tree, hfinish, hrun⟩ := ih right s'
      refine ⟨tree, ?_, ?_⟩
      · rw [Yard.shiftAll_cons, hshift, hfinish]
      · rw [run_cons_of_ok hstep, operand_taken hright (levels_pending s') h.notOpen, hrun]

end Machine

namespace Program

open Machine

/-- A chain of operations of any length is one expression, whose tree is the one that the precedence
of its operators gives: sums from the left, of products from the left. -/
theorem ofTokens_of_chain {us ts : List Token} {first : Expr} {others : List (BinaryOp × Expr)}
    (hfirst : Operand us first) (hothers : Operations ts others) :
    ofTokens (us ++ ts) = .ok ⟨[.expression (sumOfProducts first others)]⟩ ∧
      shuntingYard first others = some (sumOfProducts first others) := by
  have hyard := shuntingYard_eq first others
  refine ⟨?_, hyard⟩
  obtain ⟨tree, hfinish, hrun⟩ := operations_taken [] .expression hothers first []
  cases hfinish.symm.trans hyard
  rw [ofTokens, ofTokensWithin_eq_run, run_start_of_operand hfirst hothers.notEquals,
    operand_taken hfirst rfl hothers.notOpen]
  exact hrun

/-- `1 - x * (-x) + 1` -/
theorem ofTokens_of_chain_mixed :
    let enclosed := inserted .punctuation "(" :: (negatedName.tokens ++ [inserted .punctuation ")"])
    let ts := inserted .operator "-" :: inserted .identifier "x" :: inserted .operator "*" ::
      (enclosed ++ [inserted .operator "+", inserted .integer "1"])
    let one := Expr.number "1" false
    let others := [(.subtract, .var "x"), (.multiply, negatedName.value), (.add, one)]
    let tree := Expr.binary .add
      (.binary .subtract one (.binary .multiply (.var "x") negatedName.value)) one
    Operand [inserted .integer "1"] one ∧ Operations ts others ∧ sumOfProducts one others = tree ∧
      ofTokens (inserted .integer "1" :: ts) = .ok ⟨[.expression tree]⟩ ∧
      shuntingYard one others = some tree := by
  intro enclosed ts one others tree
  have hone : Operand [inserted .integer "1"] one := .integer rfl
  have henclosed : Operand enclosed negatedName.value :=
    .parens ⟨inserted .punctuation "(", inserted .punctuation ")", rfl, rfl, rfl⟩
      (by decide +kernel)
  have hothers : Operations ts others :=
    .more rfl (.name rfl) (.more rfl henclosed (.more rfl hone .none))
  exact ⟨hone, hothers, rfl, ofTokens_of_chain hone hothers⟩

end Program

end ExprFront
