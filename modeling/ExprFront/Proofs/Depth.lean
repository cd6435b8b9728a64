import ExprFront.Proofs.Machine.Embedding

/-!
How deep the expressions of a program can be. On the way from an expression down to any part of it,
the limit bounds the operands, the arguments and the right operands that are passed: a sign or a
call takes a level, and on one level a right operand can belong to a sum and to a product, no more.
Left operands take no level, so there is no bound for them.
-/

namespace ExprFront

open Grammar

namespace Expr

/-- A step from an expression to a part of it. -/
inductive Edge where
  | operand
  | argument
  | left
  | right
  deriving DecidableEq

/-- The steps from an expression down to a part of it. The part need not be a leaf. -/
inductive Path : Expr → List Edge → Expr → Prop
  | here (e : Expr) : Path e [] e
  | operand {op : UnaryOp} {e part : Expr} {steps : List Edge} (h : Path e steps part) :
      Path (.unary op e) (.operand :: steps) part
  | argument {function : String} {args : List Expr} {e part : Expr} {steps : List Edge}
      (hmem : e ∈ args) (h : Path e steps part) :
      Path (.call function args) (.argument :: steps) part
  | left {op : BinaryOp} {a b part : Expr} {steps : List Edge} (h : Path a steps part) :
      Path (.binary op a b) (.left :: steps) part
  | right {op : BinaryOp} {a b part : Expr} {steps : List Edge} (h : Path b steps part) :
      Path (.binary op a b) (.right :: steps) part

theorem Path.trans {a b c : Expr} {steps more : List Edge} (hab : Path a steps b)
    (hbc : Path b more c) : Path a (steps ++ more) c := by
  induction hab with
  | here e => exact hbc
  | operand _ ih => exact .operand (ih hbc)
  | argument hmem _ ih => exact .argument hmem (ih hbc)
  | left _ ih => exact .left (ih hbc)
  | right _ ih => exact .right (ih hbc)

/-- Steps that pass no more operands and arguments together, and no more right operands, than
these. -/
structure Edge.Few (levels rights : Nat) (steps : List Edge) : Prop where
  levels : steps.count .operand + steps.count .argument ≤ levels
  rights : steps.count .right ≤ rights

section Few

open Edge

variable {n m : Nat} {steps : List Edge}

theorem few_nil (n m : Nat) : Few n m [] :=
  ⟨Nat.zero_le n, Nat.zero_le m⟩

theorem Edge.Few.mono {n' m' : Nat} (h : Few n m steps) (hn : n ≤ n') (hm : m ≤ m') :
    Few n' m' steps :=
  ⟨Nat.le_trans h.levels hn, Nat.le_trans h.rights hm⟩

theorem Edge.Few.operand (h : Few n m steps) : Few (n + 1) m (.operand :: steps) := by
  refine ⟨?_, by simpa using h.rights⟩
  have hlevels := h.levels
  simp only [List.count_cons_self, ne_eq, reduceCtorEq, not_false_eq_true, List.count_cons_of_ne]
  omega

theorem Edge.Few.argument (h : Few n m steps) : Few (n + 1) m (.argument :: steps) := by
  refine ⟨?_, by simpa using h.rights⟩
  have hlevels := h.levels
  simp only [List.count_cons_self, ne_eq, reduceCtorEq, not_false_eq_true, List.count_cons_of_ne]
  omega

theorem Edge.Few.left (h : Few n m steps) : Few n m (.left :: steps) :=
  ⟨by simpa using h.levels, by simpa using h.rights⟩

theorem Edge.Few.right (h : Few n m steps) : Few n (m + 1) (.right :: steps) :=
  ⟨by simpa using h.levels, by simpa using h.rights⟩

end Few

theorem length_eq_count (steps : List Edge) : steps.length =
    steps.count .operand + steps.count .argument + steps.count .right + steps.count .left := by
  induction steps with
  | nil => rfl
  | cons step steps ih =>
      rw [List.length_cons, ih]
      cases step <;>
        simp only [ne_eq, reduceCtorEq, not_false_eq_true, List.count_cons_of_ne,
          List.count_cons_self] <;> omega

/-- No way down passes more operands and arguments, or more right operands, than these. -/
def Bounded (levels rights : Nat) (e : Expr) : Prop :=
  ∀ steps part, e.Path steps part → Edge.Few levels rights steps

variable {n m : Nat} {e a b first : Expr}

theorem Bounded.mono {n' m' : Nat} (h : e.Bounded n m) (hn : n ≤ n') (hm : m ≤ m') :
    e.Bounded n' m' :=
  fun steps part hpath => (h steps part hpath).mono hn hm

theorem bounded_number (text : String) (isFloat : Bool) (n m : Nat) :
    (number text isFloat).Bounded n m := by
  intro steps part hpath
  cases hpath with
  | here => exact few_nil n m

theorem bounded_var (name : String) (n m : Nat) : (var name).Bounded n m := by
  intro steps part hpath
  cases hpath with
  | here => exact few_nil n m

theorem Bounded.unary (h : e.Bounded n m) (op : UnaryOp) : (unary op e).Bounded (n + 1) m := by
  intro steps part hpath
  cases hpath with
  | here => exact few_nil _ _
  | operand hpath => exact (h _ part hpath).operand

theorem bounded_call {args : List Expr} (h : ∀ e ∈ args, e.Bounded n m) (function : String) :
    (call function args).Bounded (n + 1) m := by
  intro steps part hpath
  cases hpath with
  | here => exact few_nil _ _
  | argument hmem hpath => exact (h _ hmem _ part hpath).argument

theorem Bounded.binary (ha : a.Bounded n (m + 1)) (hb : b.Bounded n m) (op : BinaryOp) :
    (binary op a b).Bounded n (m + 1) := by
  intro steps part hpath
  cases hpath with
  | here => exact few_nil _ _
  | left hpath => exact (ha _ part hpath).left
  | right hpath => exact (hb _ part hpath).right

/-- Operations side by side group to the left, so that all of them together add one right operand to
the ways down. -/
theorem bounded_joined {others : List (BinaryOp × Expr)} (hfirst : first.Bounded n (m + 1))
    (hothers : ∀ other ∈ others, other.2.Bounded n m) :
    (joined first others).Bounded n (m + 1) := by
  induction others generalizing first with
  | nil => exact hfirst
  | cons other others ih =>
      obtain ⟨hother, hothers⟩ := List.forall_mem_cons.mp hothers
      exact ih (hfirst.binary hother other.1) hothers

/-- The first operand stands at the left end of operations side by side. -/
theorem path_joined (first : Expr) (others : List (BinaryOp × Expr)) :
    (joined first others).Path (List.replicate others.length .left) first := by
  induction others generalizing first with
  | nil => exact .here first
  | cons other others ih =>
      obtain ⟨op, e⟩ := other
      rw [joined_cons, List.length_cons, List.replicate_succ']
      exact (ih (.binary op first e)).trans (.left (.here first))

end Expr

namespace Grammar

open ExprFront.Expr

variable {greedy : Prop}

mutual

theorem Factor.bounded : ∀ {n ts e rest}, Factor greedy n ts e rest → e.Bounded n (2 * n)
  | _, _, _, _, .integer _ => bounded_number _ _ _ _
  | _, _, _, _, .float _ => bounded_number _ _ _ _
  | _, _, _, _, .var _ _ => bounded_var _ _ _
  | _, _, _, _, .call _ _ hes _ => bounded_call (Arguments.bounded hes) _
  | _, _, _, _, .unary _ _ he =>
      ((Factor.bounded he).unary _).mono (Nat.le_refl _) (Nat.le_add_right _ 2)
  | _, _, _, _, .parens _ he _ =>
      (Expression.bounded he).mono (Nat.le_succ _) (Nat.le_refl _)

theorem Products.bounded : ∀ {n ts others rest}, Products greedy n ts others rest →
    ∀ other ∈ others, other.2.Bounded n (2 * n)
  | _, _, _, _, .nil _ => List.forall_mem_nil _
  | _, _, _, _, .cons _ _ he hothers =>
      List.forall_mem_cons.mpr ⟨Factor.bounded he, Products.bounded hothers⟩

theorem Term.bounded : ∀ {n ts e rest}, Term greedy n ts e rest → e.Bounded n (2 * n + 1)
  | _, _, _, _, .mk hfirst hothers =>
      bounded_joined ((Factor.bounded hfirst).mono (Nat.le_refl _) (Nat.le_succ _))
        (Products.bounded hothers)

theorem Sums.bounded : ∀ {n ts others rest}, Sums greedy n ts others rest →
    ∀ other ∈ others, other.2.Bounded n (2 * n + 1)
  | _, _, _, _, .nil _ => List.forall_mem_nil _
  | _, _, _, _, .cons _ _ he hothers =>
      List.forall_mem_cons.mpr ⟨Term.bounded he, Sums.bounded hothers⟩

theorem Expression.bounded : ∀ {n ts e rest}, Expression greedy n ts e rest →
    e.Bounded n (2 * n + 2)
  | _, _, _, _, .mk hfirst hothers =>
      bounded_joined ((Term.bounded hfirst).mono (Nat.le_refl _) (Nat.le_succ _))
        (Sums.bounded hothers)

theorem Arguments.bounded : ∀ {n ts es rest}, Arguments greedy n ts es rest →
    ∀ e ∈ es, e.Bounded n (2 * n + 2)
  | _, _, _, _, .none => List.forall_mem_nil _
  | _, _, _, _, .some he hes =>
      List.forall_mem_cons.mpr ⟨Expression.bounded he, MoreArguments.bounded hes⟩

theorem MoreArguments.bounded : ∀ {n ts es rest}, MoreArguments greedy n ts es rest →
    ∀ e ∈ es, e.Bounded n (2 * n + 2)
  | _, _, _, _, .nil => List.forall_mem_nil _
  | _, _, _, _, .cons _ he hes =>
      List.forall_mem_cons.mpr ⟨Expression.bounded he, MoreArguments.bounded hes⟩

end

variable {n : Nat} {ts rest : List Token}

theorem Returns.bounded {body : List Statement} (h : Returns greedy n ts body rest) :
    ∀ e ∈ Statement.valuesList body, e.Bounded n (2 * n + 2) := by
  induction h with
  | nil _ => exact List.forall_mem_nil _
  | cons _ he _ ih => exact List.forall_mem_cons.mpr ⟨he.bounded, ih⟩

theorem Stmt.bounded {s : Statement} (h : Stmt greedy n ts s rest) :
    ∀ e ∈ s.values, e.Bounded n (2 * n + 2) := by
  cases h with
  | definition _ _ _ _ _ _ _ hbody => exact hbody.bounded
  | assignment _ _ he => exact List.forall_mem_singleton.mpr he.bounded
  | expression _ he => exact List.forall_mem_singleton.mpr he.bounded

theorem Prog.bounded {ss : List Statement} (h : Prog greedy n ts ss) :
    ∀ e ∈ Statement.valuesList ss, e.Bounded n (2 * n + 2) := by
  induction h with
  | nil => exact List.forall_mem_nil _
  | cons hs _ ih => exact List.forall_mem_append.mpr ⟨hs.bounded, ih⟩

end Grammar

namespace Program

open Machine ExprFront.Expr

/-- An expression of a program, at any depth. -/
def HasPart (p : Program) (x : Expr) : Prop :=
  ∃ e ∈ Statement.valuesList p.statements, ∃ steps, e.Path steps x

def one : Expr := .number "1" false

/-- `- 1`, so many times. -/
def differences : Nat → List Token
  | 0 => []
  | n + 1 => inserted .operator "-" :: inserted .integer "1" :: differences n

/-- `1 - 1 - 1` and so on, which opens no level. -/
def difference (n : Nat) : Expr :=
  joined one (List.replicate n (.subtract, one))

theorem differences_not_product (n : Nat) : ¬ Next (SignOf BinaryOp.products) (differences n) := by
  cases n with
  | zero => exact not_next_nil _
  | succ n =>
      rw [differences, next_cons, ← operation?_eq_none_iff]
      decide

theorem one_derives (limit n : Nat) :
    Term True limit (inserted .integer "1" :: differences n) one (differences n) :=
  .mk (.integer rfl) (.nil fun _ => differences_not_product n)

theorem differences_derive (limit n : Nat) :
    Sums True limit (differences n) (List.replicate n (.subtract, one)) [] := by
  induction n with
  | zero => exact .nil fun _ => not_next_nil _
  | succ n ih => exact .cons (by decide) ⟨rfl, rfl⟩ (one_derives limit n) ih

theorem difference_derives (limit n : Nat) :
    Prog True limit (inserted .integer "1" :: differences n) [.expression (difference n)] := by
  refine .cons (.expression ?_ (.mk (one_derives limit n) (differences_derive limit n))) .nil
  rintro _ ⟨t, u, us, hcons, hkind, _⟩
  obtain ⟨rfl, _⟩ := List.cons.inj hcons
  cases hkind

theorem nesting_differences (n : Nat) : nesting (inserted .integer "1" :: differences n) = 0 := by
  have hmost : ofTokens (inserted .integer "1" :: differences n) =
      .ok ⟨[.expression (difference n)]⟩ :=
    ofTokensWithin_eq_ok_iff.mpr (difference_derives maxNesting n)
  have hnone : ofTokensWithin 0 (inserted .integer "1" :: differences n) =
      .ok ⟨[.expression (difference n)]⟩ :=
    ofTokensWithin_eq_ok_iff.mpr (difference_derives 0 n)
  exact Nat.le_zero.mp ((ofTokensWithin_eq_ok_iff_nesting_le hmost 0).mp hnone)

/-- In a program that is read, each way down passes at most 256 operands and arguments together, and
at most 514 right operands, two for each of 257 levels. All but 770 of its steps are to left
operands, and of these there may be any number where no level is opened at all. -/
theorem depth_of_ofTokens :
    (∀ ts p, ofTokens ts = .ok p → ∀ x, p.HasPart x → ∀ steps part, x.Path steps part →
      steps.count .operand + steps.count .argument ≤ 256 ∧ steps.count .right ≤ 514 ∧
        steps.length ≤ 770 + steps.count .left) ∧
    ∀ n, ∃ ts e part, ofTokens ts = .ok ⟨[.expression e]⟩ ∧ nesting ts = 0 ∧
      e.Path (List.replicate n .left) part := by
  constructor
  · rintro ts p hp x ⟨e, he, above, habove⟩ steps part hsteps
    rw [ofTokens, ofTokensWithin_eq_ok_iff] at hp
    obtain ⟨hlevels, hrights⟩ := hp.bounded e he _ part (habove.trans hsteps)
    simp only [List.count_append, maxNesting] at hlevels hrights
    have hlength := length_eq_count steps
    omega
  · intro n
    refine ⟨_, difference n, one, ofTokensWithin_eq_ok_iff.mpr (difference_derives maxNesting n),
      nesting_differences n, ?_⟩
    have hpath := path_joined one (List.replicate n (.subtract, one))
    rwa [List.length_replicate] at hpath

/-- The way from `f(-(1 - 2 * x))` down to `x`. -/
theorem depth_of_ofTokens_call :
    let ts := [inserted .identifier "f", inserted .punctuation "(", inserted .operator "-",
      inserted .punctuation "(", inserted .integer "1", inserted .operator "-",
      inserted .integer "2", inserted .operator "*", inserted .identifier "x",
      inserted .punctuation ")", inserted .punctuation ")"]
    let x := Expr.var "x"
    let e := Expr.call "f"
      [.unary .minus (.binary .subtract one (.binary .multiply (.number "2" false) x))]
    let steps : List Edge := [.argument, .operand, .right, .right]
    ofTokens ts = .ok ⟨[.expression e]⟩ ∧ HasPart ⟨[.expression e]⟩ e ∧ e.Path steps x ∧
      steps.count .operand + steps.count .argument ≤ 256 ∧ steps.count .right ≤ 514 ∧
      steps.length ≤ 770 + steps.count .left := by
  intro ts x e steps
  have hp : ofTokens ts = .ok ⟨[.expression e]⟩ := by
    rw [ofTokens, ofTokensWithin_eq_run]
    rfl
  have hpart : HasPart ⟨[.expression e]⟩ e := ⟨e, List.mem_singleton_self e, [], .here e⟩
  have hpath : e.Path steps x :=
    .argument (List.mem_singleton_self _) (.operand (.right (.right (.here x))))
  exact ⟨hp, hpart, hpath, depth_of_ofTokens.1 ts _ hp e hpart steps x hpath⟩

end Program

end ExprFront
