import ExprFront.Proofs.Machine.Simulation
import ExprFront.Proofs.Seams
import ExprFront.Proofs.Spelling

/-!
Runs on the tokens of a written form. A run takes the tokens of an expression and goes on with that
expression as its operand, as long as no more levels are needed than are left, and is refused for
its depth otherwise.
-/

namespace ExprFront

open Token

/-- Tokens of these kinds and texts, anywhere. -/
def Spells (ts : List Token) (keys : List Key) : Prop :=
  ts.map key = keys

theorem Spells.nil {ts : List Token} (h : Spells ts []) : ts = [] :=
  List.map_eq_nil_iff.mp h

theorem Spells.cons {ts : List Token} {k : Key} {keys : List Key} (h : Spells ts (k :: keys)) :
    ∃ t us, ts = t :: us ∧ t.key = k ∧ Spells us keys :=
  List.map_eq_cons_iff.mp h

theorem Spells.append {ts : List Token} {keys more : List Key} (h : Spells ts (keys ++ more)) :
    ∃ us vs, ts = us ++ vs ∧ Spells us keys ∧ Spells vs more :=
  List.map_eq_append_iff.mp h

theorem Token.is_iff_key {t : Token} {kind : Kind} {text : String} :
    t.is kind text ↔ t.key = (kind, text) := by
  rw [is_iff, key, Prod.mk.injEq]

namespace Machine

open Grammar

variable {limit : Nat} {done : List Statement} {frames : List Frame} {owner : Owner} {e : Expr}

/-! Depth. -/

/-- One run goes on as another where a condition on levels holds, and is refused at a token where
it does not. -/
def Guarded (fits : Prop) (outcome next : Except ParseError Program) : Prop :=
  (fits → outcome = next) ∧
    (¬ fits → ∃ t : Token, outcome = .error ⟨t, .shallowerExpression⟩)

variable {p q : Prop} {x y z : Except ParseError Program}

theorem Guarded.refl (hp : p) (x : Except ParseError Program) : Guarded p x x :=
  ⟨fun _ => rfl, fun hnot => absurd hp hnot⟩

theorem Guarded.trans (hxy : Guarded p x y) (hyz : p → Guarded q y z) : Guarded (p ∧ q) x z := by
  constructor
  · intro hboth
    obtain ⟨hp, hq⟩ := hboth
    rw [hxy.1 hp, (hyz hp).1 hq]
  · intro hnot
    by_cases hp : p
    · have hq : ¬ q := fun hq => hnot ⟨hp, hq⟩
      rw [hxy.1 hp]
      exact (hyz hp).2 hq
    · exact hxy.2 hp

theorem Guarded.congr (h : Guarded p x y) (hiff : p ↔ q) : Guarded q x y := by
  rw [← hiff]
  exact h

theorem run_enter {s : State} {opener t : Token} {stage : Stage}
    (hstep : step limit s (some t) = enter limit done opener frames stage) (ts : List Token) :
    Guarded (levels frames < limit) (run limit s (t :: ts)) (run limit ⟨done, stage⟩ ts) := by
  rw [enter] at hstep
  constructor
  · intro hlevels
    rw [if_pos hlevels] at hstep
    exact run_cons_of_ok hstep
  · intro hlevels
    rw [if_neg hlevels] at hstep
    exact ⟨opener, run_cons_of_error hstep⟩

/-! Single tokens. -/

theorem step_factor_of_open {t : Token} (h : t.key = (.punctuation, "(")) :
    step limit ⟨done, .factor frames owner⟩ (some t) =
      enter limit done t frames (.factor (.parens :: frames) owner) := by
  obtain ⟨hkind, htext⟩ := Prod.mk.inj h
  rw [step_factor_some, hkind]
  exact if_pos htext

theorem step_factor_of_sign {t : Token} {op : UnaryOp} (h : t.key = (.operator, op.symbol)) :
    step limit ⟨done, .factor frames owner⟩ (some t) =
      enter limit done t frames (.factor (.sign op :: frames) owner) := by
  obtain ⟨hkind, htext⟩ := Prod.mk.inj h
  rw [step_factor_some, hkind]
  simp only [UnaryOp.ofSymbol?_eq_some_iff.mpr htext]

theorem step_factor_of_name {t : Token} {name : String} (h : t.key = (.identifier, name)) :
    step limit ⟨done, .factor frames owner⟩ (some t) = .ok ⟨done, .name t frames owner⟩ := by
  rw [step_factor_some, (Prod.mk.inj h).1]

theorem step_factor_of_number {t : Token} {isFloat : Bool} {text : String}
    (h : t.key = (Expr.numberKind isFloat, text)) :
    step limit ⟨done, .factor frames owner⟩ (some t) =
      .ok ⟨done, .operand (.number text isFloat) frames owner⟩ := by
  obtain ⟨hkind, htext⟩ := Prod.mk.inj h
  rw [step_factor_some, hkind, htext]
  cases isFloat with
  | false => rfl
  | true => rfl

theorem step_operand_of_operator {t : Token} {op : BinaryOp}
    (h : t.key = (.operator, op.symbol)) (hsettled : Settled operations frames) :
    step limit ⟨done, .operand e frames owner⟩ (some t) =
      .ok ⟨done, .factor (.left e op :: frames) owner⟩ := by
  have hsign : Sign op t := Prod.mk.inj h
  by_cases hmem : op ∈ BinaryOp.products
  · exact step_operand_product (Expr.operation?_eq_some_iff.mpr ⟨hmem, hsign⟩) hsettled.products
  · have hsums : op ∈ BinaryOp.sums := by
      cases op <;> revert hmem <;> decide
    have hproducts := operation?_of_not_mem hsign hmem
    exact step_operand_sum hproducts (Expr.operation?_eq_some_iff.mpr ⟨hsums, hsign⟩) hsettled

/-- A name before this is not a call. -/
def NotOpen (ts : List Token) : Prop :=
  ¬ ts.head?.any (·.is .punctuation "(")

theorem notOpen_cons {t : Token} {k : Key} (h : t.key = k) (hne : k ≠ (.punctuation, "("))
    (ts : List Token) : NotOpen (t :: ts) := by
  intro hopen
  exact hne (h ▸ is_iff_key.mp hopen)

theorem run_name_of_notOpen {rest : List Token} (h : NotOpen rest) (t : Token) :
    run limit ⟨done, .name t frames owner⟩ rest =
      run limit ⟨done, .operand (.var t.text) frames owner⟩ rest :=
  run_congr ((step_name limit done t frames owner rest.head?).trans (if_neg h))

theorem run_operand_endParens {c : Token} (h : c.key = (.punctuation, ")")) (rest : List Token) :
    run limit ⟨done, .operand e (.parens :: frames) owner⟩ (c :: rest) =
      run limit ⟨done, .operand e frames owner⟩ rest := by
  have hend : Ended (c :: rest) := ended_cons (by rw [(Prod.mk.inj h).1]; decide) rest
  have hstep := step_operand_parens limit done frames owner e hend
  exact run_cons_of_ok (hstep.trans (if_pos (is_iff_key.mpr h)))

theorem run_operand_comma {c : Token} (h : c.key = (.punctuation, ",")) (function : String)
    (earlier : List Expr) (rest : List Token) :
    run limit ⟨done, .operand e (.argument function earlier :: frames) owner⟩ (c :: rest) =
      run limit ⟨done, .factor (.argument function (e :: earlier) :: frames) owner⟩ rest := by
  have hend : Ended (c :: rest) := ended_cons (by rw [(Prod.mk.inj h).1]; decide) rest
  have hstep := step_operand_argument limit done frames owner e hend function earlier
  exact run_cons_of_ok (hstep.trans (if_pos (is_iff_key.mpr h)))

theorem run_operand_endCall {c : Token} (h : c.key = (.punctuation, ")")) (function : String)
    (earlier : List Expr) (rest : List Token) :
    run limit ⟨done, .operand e (.argument function earlier :: frames) owner⟩ (c :: rest) =
      run limit ⟨done, .operand (.call function (e :: earlier).reverse) frames owner⟩ rest := by
  have hend : Ended (c :: rest) := ended_cons (by rw [(Prod.mk.inj h).1]; decide) rest
  have hcomma : ¬ c.is .punctuation "," := by
    rw [is_iff_key, h]
    decide
  have hstep := step_operand_argument limit done frames owner e hend function earlier
  exact run_cons_of_ok ((hstep.trans (if_neg hcomma)).trans (if_pos (is_iff_key.mpr h)))

/-! Expressions. -/

/-- Runs take an expression whole, wherever a factor is due. -/
def Taken (limit : Nat) (done : List Statement) (owner : Owner) (e : Expr) : Prop :=
  ∀ frames ts rest, Spells ts e.spelling → levels frames ≤ limit →
    (∀ name, e = .var name → NotOpen rest) →
      Guarded (levels frames + e.need ≤ limit) (run limit ⟨done, .factor frames owner⟩ (ts ++ rest))
        (run limit ⟨done, .operand e frames owner⟩ rest)

/-- The expressions that are written in parentheses of their own. -/
inductive Parenthesised : Expr → Prop
  | unary (op : UnaryOp) (operand : Expr) : Parenthesised (.unary op operand)
  | binary (op : BinaryOp) (left right : Expr) : Parenthesised (.binary op left right)

/-- What stands between those parentheses. -/
def inside : Expr → List Key
  | .unary op operand => (.operator, op.symbol) :: operand.spelling
  | .binary op left right => left.spelling ++ (.operator, op.symbol) :: right.spelling
  | _ => []

/-- An operation is taken where its parentheses, or those of a call, are already open. -/
def InsideTaken (limit : Nat) (done : List Statement) (owner : Owner) (e : Expr) : Prop :=
  ∀ frames ts rest, Spells ts (inside e) → levels frames ≤ limit → Settled operations frames →
    Ended rest → NotOpen rest →
      Guarded (levels frames + e.need ≤ limit + 1)
        (run limit ⟨done, .factor frames owner⟩ (ts ++ rest))
        (run limit ⟨done, .operand e frames owner⟩ rest)

theorem unary_inside {op : UnaryOp} {operand : Expr} (h : Taken limit done owner operand) :
    InsideTaken limit done owner (.unary op operand) := by
  intro frames ts rest hts hlevels _ _ hrest
  obtain ⟨t, us, rfl, ht, hus⟩ := hts.cons
  have hsign : Guarded (levels frames < limit)
      (run limit ⟨done, .factor frames owner⟩ (t :: (us ++ rest)))
      (run limit ⟨done, .factor (.sign op :: frames) owner⟩ (us ++ rest)) :=
    run_enter (step_factor_of_sign ht) _
  have hoperand (hlt : levels frames < limit) :=
    h (.sign op :: frames) us rest hus (by rw [levels_sign]; omega) fun _ _ => hrest
  rw [run_operand_sign] at hoperand
  apply (hsign.trans hoperand).congr
  rw [levels_sign, Expr.need]
  omega

theorem binary_inside {op : BinaryOp} {left right : Expr} (hleft : Taken limit done owner left)
    (hright : Taken limit done owner right) :
    InsideTaken limit done owner (.binary op left right) := by
  intro frames ts rest hts hlevels hsettled hend hrest
  obtain ⟨us, vs, rfl, hus, hvs⟩ := hts.append
  obtain ⟨o, ws, rfl, ho, hws⟩ := hvs.cons
  have hfirst := hleft frames us (o :: (ws ++ rest)) hus hlevels
    fun _ _ => notOpen_cons ho (by simp) _
  rw [run_cons_of_ok (step_operand_of_operator ho hsettled)] at hfirst
  have hsecond := hright (.left left op :: frames) ws rest hws (by rwa [levels_left])
    fun _ _ => hrest
  rw [run_congr (step_operand_left_of_not_product hend.1 op left)] at hsecond
  rw [List.append_assoc]
  apply (hfirst.trans fun _ => hsecond).congr
  rw [levels_left, Expr.need]
  omega

theorem close_ended {c : Token} (h : c.key = (.punctuation, ")")) (rest : List Token) :
    Ended (c :: rest) :=
  ended_cons (by rw [(Prod.mk.inj h).1]; decide) rest

theorem close_notOpen {c : Token} (h : c.key = (.punctuation, ")")) (rest : List Token) :
    NotOpen (c :: rest) :=
  notOpen_cons h (by decide) rest

theorem Parenthesised.spelling_eq (h : Parenthesised e) :
    e.spelling = (.punctuation, "(") :: (inside e ++ [(.punctuation, ")")]) := by
  cases h with
  | unary op operand => simp [Expr.spelling, inside]
  | binary op left right => simp [Expr.spelling, inside]

theorem Parenthesised.need_pos (h : Parenthesised e) : 0 < e.need := by
  cases h with
  | unary op operand =>
      rw [Expr.need]
      omega
  | binary op left right =>
      rw [Expr.need]
      omega

theorem Parenthesised.taken (hparens : Parenthesised e) (h : InsideTaken limit done owner e) :
    Taken limit done owner e := by
  intro frames ts rest hts hlevels _
  have hneed := hparens.need_pos
  rw [hparens.spelling_eq] at hts
  obtain ⟨t, us, rfl, ht, hus⟩ := hts.cons
  obtain ⟨vs, ws, rfl, hvs, hws⟩ := hus.append
  obtain ⟨c, xs, rfl, hc, hxs⟩ := hws.cons
  rw [hxs.nil, List.cons_append, List.append_assoc]
  have hopen : Guarded (levels frames < limit)
      (run limit ⟨done, .factor frames owner⟩ (t :: (vs ++ ([c] ++ rest))))
      (run limit ⟨done, .factor (.parens :: frames) owner⟩ (vs ++ ([c] ++ rest))) :=
    run_enter (step_factor_of_open ht) _
  have hinside (hlt : levels frames < limit) :=
    h (.parens :: frames) vs (c :: rest) hvs (by rw [levels_parens]; omega) trivial
      (close_ended hc rest) (close_notOpen hc rest)
  rw [run_operand_endParens hc] at hinside
  apply (hopen.trans hinside).congr
  rw [levels_parens]
  omega

/-! Calls. -/

theorem spelling_head (e : Expr) : ∃ k keys, e.spelling = k :: keys ∧ k ≠ (.punctuation, ")") := by
  cases e with
  | number text isFloat =>
      refine ⟨_, _, rfl, ?_⟩
      cases isFloat <;> simp [Expr.numberKind]
  | var name => exact ⟨_, _, rfl, by simp⟩
  | unary op operand => exact ⟨_, _, rfl, by decide⟩
  | binary op left right => exact ⟨_, _, rfl, by decide⟩
  | call function args => exact ⟨_, _, rfl, by simp⟩

theorem run_opened_of_argument {k : Key} (hk : k ≠ (.punctuation, ")")) {t : Token}
    (ht : t.key = k) (function : String) (ts : List Token) :
    run limit ⟨done, .opened function frames owner⟩ (t :: ts) =
      run limit ⟨done, .factor (.argument function [] :: frames) owner⟩ (t :: ts) := by
  have hclose : ¬ t.is .punctuation ")" := by
    rw [is_iff_key, ht]
    exact hk
  exact run_congr ((step_opened limit done function frames owner (some t)).trans (if_neg hclose))

theorem notOpen_moreArguments {es : List Expr} {ts rest : List Token} {c : Token}
    (hts : Spells ts (Expr.spellingMore es)) (hc : c.key = (.punctuation, ")")) :
    NotOpen (ts ++ c :: rest) := by
  cases es with
  | nil =>
      rw [hts.nil]
      exact close_notOpen hc rest
  | cons e es =>
      obtain ⟨m, us, rfl, hm, _⟩ := hts.cons
      exact notOpen_cons hm (by decide) _

theorem moreArguments_taken {es : List Expr} (h : ∀ e ∈ es, Taken limit done owner e)
    {ts : List Token} {c : Token} (hts : Spells ts (Expr.spellingMore es))
    (hc : c.key = (.punctuation, ")")) (hlevels : levels frames + 1 ≤ limit) (function : String)
    (earlier : List Expr) (e : Expr) (rest : List Token) :
    Guarded (levels frames + 1 + Expr.needList es ≤ limit)
      (run limit ⟨done, .operand e (.argument function earlier :: frames) owner⟩
        (ts ++ c :: rest))
      (run limit ⟨done, .operand (.call function ((e :: earlier).reverse ++ es)) frames owner⟩
        rest) := by
  induction es generalizing ts earlier e with
  | nil =>
      rw [hts.nil, List.nil_append, run_operand_endCall hc, List.append_nil]
      exact .refl (by simpa [Expr.needList] using hlevels) _
  | cons next es ih =>
      obtain ⟨m, us, rfl, hm, hus⟩ := hts.cons
      obtain ⟨vs, ws, rfl, hvs, hws⟩ := hus.append
      have hnotOpen : NotOpen (ws ++ c :: rest) := notOpen_moreArguments hws hc
      have hnext := h next List.mem_cons_self (.argument function (e :: earlier) :: frames) vs
        (ws ++ c :: rest) hvs (by rwa [levels_argument]) fun _ _ => hnotOpen
      have hmore := ih (fun e he => h e (List.mem_cons_of_mem next he)) hws (e :: earlier) next
      have hargs : (e :: earlier).reverse ++ next :: es = (next :: e :: earlier).reverse ++ es := by
        simp
      rw [List.cons_append, run_operand_comma hm, List.append_assoc, hargs]
      apply (hnext.trans fun _ => hmore).congr
      rw [levels_argument, Expr.needList]
      omega

theorem arguments_taken {es : List Expr} (h : ∀ e ∈ es, Taken limit done owner e)
    {ts : List Token} {c : Token} (hts : Spells ts (Expr.spellingList es))
    (hc : c.key = (.punctuation, ")")) (hlevels : levels frames + 1 ≤ limit)
    (function : String) (rest : List Token) :
    Guarded (levels frames + 1 + Expr.needList es ≤ limit)
      (run limit ⟨done, .opened function frames owner⟩ (ts ++ c :: rest))
      (run limit ⟨done, .operand (.call function es) frames owner⟩ rest) := by
  cases es with
  | nil =>
      have hstep := step_opened limit done function frames owner (some c)
      rw [hts.nil, List.nil_append, run_cons_of_ok (hstep.trans (if_pos (is_iff_key.mpr hc)))]
      exact .refl (by simpa [Expr.needList] using hlevels) _
  | cons e es =>
      obtain ⟨us, vs, rfl, hus, hvs⟩ := hts.append
      have hfirst := h e List.mem_cons_self (.argument function [] :: frames) us (vs ++ c :: rest)
        hus (by rwa [levels_argument]) fun _ _ => notOpen_moreArguments hvs hc
      have hmore := moreArguments_taken (fun e he => h e (List.mem_cons_of_mem _ he)) hvs hc
        hlevels function [] e rest
      obtain ⟨k, keys, hkeys, hk⟩ := spelling_head e
      obtain ⟨t, ws, rfl, ht, _⟩ := Spells.cons (hkeys ▸ hus)
      rw [List.cons_append, List.cons_append, run_opened_of_argument hk ht, ← List.cons_append,
        ← List.cons_append, List.append_assoc]
      apply (hfirst.trans fun _ => hmore).congr
      rw [levels_argument, Expr.needList]
      omega

theorem call_taken {function : String} {args : List Expr}
    (h : ∀ e ∈ args, Taken limit done owner e) :
    Taken limit done owner (.call function args) := by
  intro frames ts rest hts hlevels _
  obtain ⟨t, us, rfl, ht, hus⟩ := hts.cons
  obtain ⟨o, vs, rfl, ho, hvs⟩ := hus.cons
  obtain ⟨ws, xs, rfl, hws, hxs⟩ := hvs.append
  obtain ⟨c, ys, rfl, hc, hys⟩ := hxs.cons
  rw [hys.nil, List.cons_append, List.cons_append, List.append_assoc,
    run_cons_of_ok (step_factor_of_name ht)]
  have hstep := step_name limit done t frames owner (some o)
  have hopen := run_enter (hstep.trans (if_pos (is_iff_key.mpr ho))) (ws ++ ([c] ++ rest))
  rw [(Prod.mk.inj ht).2] at hopen
  have hargs (hlt : levels frames < limit) := arguments_taken h hws hc hlt function rest
  apply (hopen.trans hargs).congr
  rw [Expr.need]
  omega

mutual

/-- The tokens of an expression are taken whole by every run that is due a factor. -/
theorem taken : ∀ e, Taken limit done owner e
  | .number text isFloat => by
      intro frames ts rest hts hlevels _
      obtain ⟨t, us, rfl, ht, hus⟩ := hts.cons
      rw [hus.nil, List.cons_append, run_cons_of_ok (step_factor_of_number ht)]
      exact .refl (by simpa [Expr.need] using hlevels) _
  | .var name => by
      intro frames ts rest hts hlevels hrest
      obtain ⟨t, us, rfl, ht, hus⟩ := hts.cons
      rw [hus.nil, List.cons_append, run_cons_of_ok (step_factor_of_name ht), List.nil_append,
        run_name_of_notOpen (hrest name rfl), (Prod.mk.inj ht).2]
      exact .refl (by simpa [Expr.need] using hlevels) _
  | .unary op operand =>
      (Parenthesised.unary op operand).taken (unary_inside (taken operand))
  | .binary op left right =>
      (Parenthesised.binary op left right).taken (binary_inside (taken left) (taken right))
  | .call function args => call_taken (taken_of_mem args)

theorem taken_of_mem : ∀ es : List Expr, ∀ e ∈ es, Taken limit done owner e
  | [] => nofun
  | e :: es => List.forall_mem_cons.mpr ⟨taken e, taken_of_mem es⟩

end

theorem Parenthesised.inside_taken (h : Parenthesised e) : InsideTaken limit done owner e := by
  cases h with
  | unary op operand => exact unary_inside (Machine.taken operand)
  | binary op left right => exact binary_inside (Machine.taken left) (Machine.taken right)

theorem Parenthesised.inside_head (h : Parenthesised e) :
    ∃ k keys, inside e = k :: keys ∧ k ≠ (.punctuation, ")") := by
  cases h with
  | unary op operand => exact ⟨_, _, rfl, by simp⟩
  | binary op left right =>
      obtain ⟨k, keys, hkeys, hk⟩ := spelling_head left
      exact ⟨k, _, by rw [inside, hkeys, List.cons_append], hk⟩

/-- After a name, an expression in parentheses is taken for the argument of a call. -/
theorem call_of_name_taken (limit : Nat) (done : List Statement) (owner : Owner)
    (h : Parenthesised e) (t : Token) {ts : List Token} (hts : Spells ts e.spelling)
    (rest : List Token) :
    Guarded (e.need ≤ limit) (run limit ⟨done, .name t [] owner⟩ (ts ++ rest))
      (run limit ⟨done, .operand (.call t.text [e]) [] owner⟩ rest) := by
  have hneed := h.need_pos
  rw [h.spelling_eq] at hts
  obtain ⟨o, us, rfl, ho, hus⟩ := hts.cons
  obtain ⟨vs, ws, rfl, hvs, hws⟩ := hus.append
  obtain ⟨c, xs, rfl, hc, hxs⟩ := hws.cons
  obtain ⟨k, keys, hkeys, hk⟩ := h.inside_head
  obtain ⟨u, ys, rfl, hu, _⟩ := Spells.cons (hkeys ▸ hvs)
  rw [hxs.nil, List.cons_append, List.append_assoc]
  have hstep := step_name limit done t [] owner (some o)
  have hopen := run_enter (hstep.trans (if_pos (is_iff_key.mpr ho))) (u :: (ys ++ ([c] ++ rest)))
  rw [run_opened_of_argument hk hu] at hopen
  have hargument (hlt : levels [] < limit) :
      Guarded (levels [.argument t.text []] + e.need ≤ limit + 1)
        (run limit ⟨done, .factor [.argument t.text []] owner⟩ (u :: ys ++ c :: rest))
        (run limit ⟨done, .operand e [.argument t.text []] owner⟩ (c :: rest)) :=
    h.inside_taken _ _ _ hvs hlt trivial (close_ended hc rest) (close_notOpen hc rest)
  rw [run_operand_endCall hc] at hargument
  apply (hopen.trans hargument).congr
  rw [levels_argument, levels_nil]
  omega

end Machine

end ExprFront
