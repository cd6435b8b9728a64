import ExprFront.Proofs.Machine.Embedding

/-!
Expressions from expressions. Tokens that are an expression on their own are that expression
between parentheses, under a sign, beside an operator and among the arguments of a call, with the
levels that these open on top of their own, up to the limit.
-/

namespace ExprFront

open Token Grammar

/-- Tokens that are an expression on their own. -/
structure Fragment where
  tokens : List Token
  value : Expr
  read : Program.ofTokens tokens = .ok ⟨[.expression value]⟩

/-- The most levels that are open at once in a fragment. -/
def Fragment.nesting (u : Fragment) : Nat :=
  Program.nesting u.tokens

/-- Tokens in parentheses. -/
def Enclosed (inside ts : List Token) : Prop :=
  ∃ o c, o.is .punctuation "(" ∧ c.is .punctuation ")" ∧ ts = o :: (inside ++ [c])

/-- Fragments with commas between them. -/
inductive Separated : List Fragment → List Token → Prop
  | none : Separated [] []
  | one (u : Fragment) : Separated [u] u.tokens
  | more (u : Fragment) {t : Token} {v : Fragment} {us : List Fragment} {ts : List Token}
      (hcomma : t.is .punctuation ",") (h : Separated (v :: us) ts) :
      Separated (u :: v :: us) (u.tokens ++ t :: ts)

/-- Tokens and their tree, put together from fragments with so many levels around each of them. -/
inductive Composed : List Fragment → Nat → List Token → Expr → Prop
  | parens {u : Fragment} {ts : List Token} (h : Enclosed u.tokens ts) : Composed [u] 1 ts u.value
  | unary {u : Fragment} {ts : List Token} {t : Token} {op : UnaryOp}
      (hop : t.is .operator op.symbol) (h : Enclosed u.tokens ts) :
      Composed [u] 2 (t :: ts) (.unary op u.value)
  | binary {u v : Fragment} {ts vs : List Token} {t : Token} {op : BinaryOp}
      (hop : t.is .operator op.symbol) (hu : Enclosed u.tokens ts) (hv : Enclosed v.tokens vs) :
      Composed [u, v] 1 (ts ++ t :: vs) (.binary op u.value v.value)
  | call {us : List Fragment} {inside ts : List Token} {f : Token} (hname : f.kind = .identifier)
      (hargs : Separated us inside) (h : Enclosed inside ts) :
      Composed us 1 (f :: ts) (.call f.text (us.map Fragment.value))

namespace Machine

variable {limit : Nat} {done : List Statement} {frames : List Frame} {owner : Owner}
variable {ts inside : List Token}

theorem parens_taken {u : Fragment} (h : Enclosed u.tokens ts) (rest : List Token) :
    Guarded (levels frames + u.nesting + 1 ≤ limit)
      (run limit ⟨done, .factor frames owner⟩ (ts ++ rest))
      (run limit ⟨done, .operand u.value frames owner⟩ rest) := by
  obtain ⟨o, c, ho, hc, rfl⟩ := h
  rw [is_iff_key] at ho hc
  have hopen : Guarded (levels frames < limit)
      (run limit ⟨done, .factor frames owner⟩ (o :: (u.tokens ++ c :: rest)))
      (run limit ⟨done, .factor (.parens :: frames) owner⟩ (u.tokens ++ c :: rest)) :=
    run_enter (step_factor_of_open ho) _
  have hinside (hlt : levels frames < limit) :
      Guarded (levels (.parens :: frames) + u.nesting ≤ limit)
        (run limit ⟨done, .factor (.parens :: frames) owner⟩ (u.tokens ++ c :: rest))
        (run limit ⟨done, .operand u.value (.parens :: frames) owner⟩ (c :: rest)) :=
    expression_taken u.read trivial (close_ended hc rest) (close_notOpen hc rest)
      (by rwa [levels_parens])
  rw [run_operand_endParens hc] at hinside
  rw [List.cons_append, List.append_assoc, List.singleton_append]
  apply (hopen.trans hinside).congr
  rw [levels_parens]
  omega

/-- The arguments of a call are taken one after the other, from the first on. -/
theorem separated_taken {us : List Fragment} (h : Separated us inside) (hne : us ≠ [])
    {c : Token} (hc : c.key = (.punctuation, ")")) (hlevels : levels frames + 1 ≤ limit)
    (function : String) (earlier : List Expr) (rest : List Token) :
    Guarded (∀ u ∈ us, levels frames + 1 + u.nesting ≤ limit)
      (run limit ⟨done, .factor (.argument function earlier :: frames) owner⟩
        (inside ++ c :: rest))
      (run limit ⟨done, .operand (.call function (earlier.reverse ++ us.map Fragment.value))
        frames owner⟩ rest) := by
  induction h generalizing earlier with
  | none => exact absurd rfl hne
  | one u =>
      have htaken : Guarded (levels (.argument function earlier :: frames) + u.nesting ≤ limit) _
          (run limit ⟨done, .operand u.value (.argument function earlier :: frames) owner⟩
            (c :: rest)) :=
        expression_taken u.read trivial (close_ended hc rest) (close_notOpen hc rest)
          (by rwa [levels_argument])
      rw [run_operand_endCall hc, levels_argument, List.reverse_cons] at htaken
      apply htaken.congr
      simp
  | @more u comma v us ts hcomma _ ih =>
      rw [is_iff_key] at hcomma
      have hend : Ended (comma :: (ts ++ c :: rest)) :=
        ended_cons (by rw [(Prod.mk.inj hcomma).1]; decide) _
      have htaken : Guarded (levels (.argument function earlier :: frames) + u.nesting ≤ limit) _
          (run limit ⟨done, .operand u.value (.argument function earlier :: frames) owner⟩
            (comma :: (ts ++ c :: rest))) :=
        expression_taken u.read trivial hend (notOpen_cons hcomma (by decide) _)
          (by rwa [levels_argument])
      rw [run_operand_comma hcomma, levels_argument] at htaken
      have hothers := ih (by simp) (u.value :: earlier)
      rw [List.reverse_cons, List.append_assoc, List.singleton_append] at hothers
      rw [List.append_assoc, List.cons_append, List.map_cons]
      apply (htaken.trans fun _ => hothers).congr
      simp only [List.forall_mem_cons]

theorem opened_taken {us : List Fragment} (h : Separated us inside) {c : Token}
    (hc : c.key = (.punctuation, ")")) (hlevels : levels frames + 1 ≤ limit) (function : String)
    (rest : List Token) :
    Guarded (∀ u ∈ us, levels frames + 1 + u.nesting ≤ limit)
      (run limit ⟨done, .opened function frames owner⟩ (inside ++ c :: rest))
      (run limit ⟨done, .operand (.call function (us.map Fragment.value)) frames owner⟩
        rest) := by
  have hfirst (u : Fragment) (more : List Token) :
      run limit ⟨done, .opened function frames owner⟩ (u.tokens ++ more) =
        run limit ⟨done, .factor (.argument function [] :: frames) owner⟩ (u.tokens ++ more) := by
    obtain ⟨⟨t, ht, hstart⟩, _⟩ := factor_due u.read
    obtain ⟨ts, hcons⟩ := List.head?_eq_some_iff.mp ht
    rw [hcons, List.cons_append]
    exact run_opened_of_argument (fun hclose => hstart.not_close (is_iff_key.mpr hclose)) rfl
      function (ts ++ more)
  cases h with
  | none =>
      have hstep := step_opened limit done function frames owner (some c)
      rw [List.nil_append, run_cons_of_ok (hstep.trans (if_pos (is_iff_key.mpr hc)))]
      exact .refl (by simp) _
  | one u =>
      rw [hfirst]
      exact separated_taken (.one u) (by simp) hc hlevels function [] rest
  | more u hcomma h =>
      rw [List.append_assoc, hfirst, ← List.append_assoc]
      exact separated_taken (.more u hcomma h) (by simp) hc hlevels function [] rest

theorem run_start_of_enclosed (h : Enclosed inside ts) (rest : List Token) :
    run limit ⟨done, .start⟩ (ts ++ rest) =
      run limit ⟨done, .factor [] .expression⟩ (ts ++ rest) := by
  obtain ⟨o, c, ho, _, rfl⟩ := h
  exact run_start_of_key (is_iff_key.mp ho) (by decide) (by decide) _

theorem run_start_of_called {f : Token} (hname : f.kind = .identifier) (h : Enclosed inside ts)
    (rest : List Token) :
    run limit ⟨done, .start⟩ (f :: (ts ++ rest)) =
      run limit ⟨done, .factor [] .expression⟩ (f :: (ts ++ rest)) := by
  obtain ⟨o, c, ho, _, rfl⟩ := h
  have hsign : ¬ o.is .operator "=" := by
    rw [is_iff_key, is_iff_key.mp ho]
    decide
  exact run_start_of_name hname hsign

theorem sign_taken {u : Fragment} {t : Token} {op : UnaryOp} (hop : t.key = (.operator, op.symbol))
    (h : Enclosed u.tokens ts) {rest : List Token} :
    Guarded (levels frames + u.nesting + 2 ≤ limit)
      (run limit ⟨done, .factor frames owner⟩ (t :: (ts ++ rest)))
      (run limit ⟨done, .operand (.unary op u.value) frames owner⟩ rest) := by
  have hsign : Guarded (levels frames < limit)
      (run limit ⟨done, .factor frames owner⟩ (t :: (ts ++ rest)))
      (run limit ⟨done, .factor (.sign op :: frames) owner⟩ (ts ++ rest)) :=
    run_enter (step_factor_of_sign hop) _
  have hparens : Guarded (levels (.sign op :: frames) + u.nesting + 1 ≤ limit) _
      (run limit ⟨done, .operand u.value (.sign op :: frames) owner⟩ rest) := parens_taken h rest
  rw [run_operand_sign] at hparens
  apply (hsign.trans fun _ => hparens).congr
  rw [levels_sign]
  omega

theorem operation_taken {u v : Fragment} {t : Token} {op : BinaryOp} {vs rest : List Token}
    (hop : t.key = (.operator, op.symbol)) (hu : Enclosed u.tokens ts) (hv : Enclosed v.tokens vs)
    (hsettled : Settled operations frames) (hrest : Ended rest) :
    Guarded (levels frames + u.nesting + 1 ≤ limit ∧ levels frames + v.nesting + 1 ≤ limit)
      (run limit ⟨done, .factor frames owner⟩ (ts ++ t :: (vs ++ rest)))
      (run limit ⟨done, .operand (.binary op u.value v.value) frames owner⟩ rest) := by
  have hfirst : Guarded (levels frames + u.nesting + 1 ≤ limit) _
      (run limit ⟨done, .operand u.value frames owner⟩ (t :: (vs ++ rest))) :=
    parens_taken hu (t :: (vs ++ rest))
  have hsecond : Guarded (levels (.left u.value op :: frames) + v.nesting + 1 ≤ limit) _
      (run limit ⟨done, .operand v.value (.left u.value op :: frames) owner⟩ rest) :=
    parens_taken hv rest
  rw [run_cons_of_ok (step_operand_of_operator hop hsettled)] at hfirst
  rw [run_congr (step_operand_left_of_not_product hrest.1 op u.value), levels_left] at hsecond
  exact hfirst.trans fun _ => hsecond

theorem named_taken {us : List Fragment} {f : Token} (hname : f.kind = .identifier)
    (hargs : Separated us inside) (h : Enclosed inside ts) (rest : List Token) :
    Guarded (levels frames < limit ∧ ∀ u ∈ us, levels frames + 1 + u.nesting ≤ limit)
      (run limit ⟨done, .factor frames owner⟩ (f :: (ts ++ rest)))
      (run limit ⟨done, .operand (.call f.text (us.map Fragment.value)) frames owner⟩ rest) := by
  obtain ⟨o, c, ho, hc, rfl⟩ := h
  have hstep := step_name limit done f frames owner (some o)
  have hopen := run_enter (hstep.trans (if_pos ho)) (inside ++ c :: rest)
  rw [run_cons_of_ok (step_factor_of_name (key_of_kind hname)), List.cons_append, List.append_assoc,
    List.singleton_append]
  exact hopen.trans fun hlt => opened_taken hargs (is_iff_key.mp hc) hlt f.text rest

end Machine

namespace Program

open Machine

/-- An expression that is put together from fragments has the tree that is put together from
theirs, where no fragment's levels go past the limit under those that are opened around it; else
there is an error at the token that opens the first level too many. -/
theorem ofTokens_of_composed {us : List Fragment} {added : Nat} {ts : List Token} {e : Expr}
    (h : Composed us added ts e) :
    Guarded (∀ u ∈ us, u.nesting + added ≤ maxNesting) (ofTokens ts) (.ok ⟨[.expression e]⟩) := by
  have hend : run maxNesting ⟨[], .operand e [] .expression⟩ [] = .ok ⟨[.expression e]⟩ := rfl
  rw [ofTokens, ofTokensWithin_eq_run, ← hend, ← List.append_nil ts]
  cases h with
  | parens h =>
      rw [run_start_of_enclosed h]
      apply (parens_taken h []).congr
      simp
  | unary hop h =>
      rw [List.cons_append, run_start_of_key (is_iff_key.mp hop) (by simp) (by simp)]
      apply (sign_taken (is_iff_key.mp hop) h).congr
      simp
  | binary hop hu hv =>
      have hnone : Settled operations [] := trivial
      rw [List.append_assoc, run_start_of_enclosed hu]
      apply (operation_taken (is_iff_key.mp hop) hu hv hnone ⟨rfl, rfl⟩).congr
      simp
  | call hname hargs h =>
      rw [List.cons_append, run_start_of_called hname h]
      apply (named_taken hname hargs h []).congr
      simp [maxNesting, Nat.add_comm]

/-- `-x` -/
def negatedName : Fragment where
  tokens := [inserted .operator "-", inserted .identifier "x"]
  value := .unary .minus (.var "x")
  read := by
    rw [ofTokens, ofTokensWithin_eq_run]
    rfl

/-- `1` -/
def literalOne : Fragment where
  tokens := [inserted .integer "1"]
  value := .number "1" false
  read := by
    rw [ofTokens, ofTokensWithin_eq_run]
    rfl

/-- `f(-x, 1)` -/
theorem ofTokens_of_composed_call :
    let opening := inserted .punctuation "("
    let comma := inserted .punctuation ","
    let closing := inserted .punctuation ")"
    let inside := negatedName.tokens ++ comma :: literalOne.tokens
    let call : List Token := inserted .identifier "f" :: opening :: (inside ++ [closing])
    let tree := Expr.call "f" [.unary .minus (.var "x"), .number "1" false]
    Composed [negatedName, literalOne] 1 call tree ∧
      (∀ u ∈ [negatedName, literalOne], u.nesting + 1 ≤ maxNesting) ∧
      ofTokens call = .ok ⟨[.expression tree]⟩ := by
  intro opening comma closing inside call tree
  have hargs : Separated [negatedName, literalOne] inside := .more negatedName rfl (.one literalOne)
  have hcall : Composed [negatedName, literalOne] 1 call tree :=
    .call rfl hargs ⟨opening, closing, rfl, rfl, rfl⟩
  have hlevels : ∀ u ∈ [negatedName, literalOne], u.nesting + 1 ≤ maxNesting := by
    simp only [List.forall_mem_cons]
    decide +kernel
  exact ⟨hcall, hlevels, (ofTokens_of_composed hcall).1 hlevels⟩

end Program

end ExprFront
