import ExprFront.Proofs.Counter.Limit
import ExprFront.Proofs.Grammar.Complete
import ExprFront.Proofs.Machine.Concatenation

/-!
Values on top of frames that are not theirs. While a value is under way, a step sees the frames that
the value has put up itself, and neither those below them nor the owner. So tokens that are an
expression on their own are the same expression wherever a factor is due, as long as the limit has
room for their levels on top of those that are open already.
-/

namespace ExprFront

/-! Levels of a whole reading. -/

namespace Counted

/-- The most levels that were open at once. -/
def deepest (opened : List Opening) : Nat :=
  opened.foldr (fun o depth => max o.level depth) 0

theorem firstPast_eq_none_iff {n : Nat} {opened : List Opening} :
    firstPast n opened = none ↔ deepest opened ≤ n := by
  induction opened with
  | nil => simp [firstPast, deepest]
  | cons o opened ih =>
      have hcons : deepest (o :: opened) = max o.level (deepest opened) := rfl
      rw [hcons, Nat.max_le, ← ih]
      by_cases hlevel : n < o.level
      · have hfound : firstPast n (o :: opened) = some o := List.find?_cons_of_pos (by simpa)
        simp [hfound, Nat.not_le.mpr hlevel]
      · have hpassed : firstPast n (o :: opened) = firstPast n opened :=
          List.find?_cons_of_neg (by simpa using hlevel)
        simp [hpassed, Nat.le_of_not_lt hlevel]

end Counted

namespace Program

open Counted

/-- The most levels that are open at once while tokens are read. -/
def nesting (ts : List Token) : Nat :=
  deepest (Counted.ofTokens (some maxNesting) ts).2.opened

/-- Tokens that are read are read under any limit that their levels do not go past, and under no
other. -/
theorem ofTokensWithin_eq_ok_iff_nesting_le {ts : List Token} {p : Program}
    (h : ofTokens ts = .ok p) (n : Nat) : ofTokensWithin n ts = .ok p ↔ nesting ts ≤ n := by
  have hfree : ∀ {n q}, ofTokensWithin n ts = .ok q →
      firstPast n (Counted.ofTokens none ts).2.opened = none := by
    intro n q hread
    cases hfirst : firstPast n (Counted.ofTokens none ts).2.opened with
    | none => rfl
    | some o =>
        rw [(ofTokensWithin_eq_refused hfirst).2] at hread
        cases hread
  have hsame : Counted.ofTokens (some maxNesting) ts = Counted.ofTokens none ts :=
    (Limits.program maxNesting).same ⟨ts, 0, []⟩ (hfree h)
  rw [nesting, hsame, ← firstPast_eq_none_iff]
  refine ⟨hfree, ?_⟩
  intro hn
  rw [ofTokensWithin_eq_unlimited hn, ← ofTokensWithin_eq_unlimited (hfree h)]
  exact h

end Program

namespace Machine

open Grammar

variable {limit m n : Nat} {done : List Statement} {frames base : List Frame} {owner : Owner}
variable {e : Expr} {rest : List Token}

/-! Steps within a value. -/

/-- Where a value is under way, apart from the frames it stands on and from its owner. -/
inductive Point where
  | factor
  | name (t : Token)
  | opened (function : String)
  | operand (e : Expr)

def Point.stage (frames : List Frame) (owner : Owner) : Point → Stage
  | factor => .factor frames owner
  | name t => .name t frames owner
  | opened function => .opened function frames owner
  | operand e => .operand e frames owner

/-- What a step does within a value, whatever limit there is, what is complete, what frames stand
below those of the value, and whose value it is: it goes on with the value, perhaps by one more
level, or fails, or finds the value complete. -/
inductive Within (t? : Option Token)
    (outcome : Nat → List Statement → List Frame → Owner → Except ParseError State) : Prop
  | moves (p : Point) (frames : List Frame) (h : ∀ limit done base owner, Settled operations base →
      outcome limit done base owner = .ok ⟨done, p.stage (frames ++ base) owner⟩)
  | opens (opener : Token) (outer : List Frame) (p : Point) (frames : List Frame)
      (h : ∀ limit done base owner, Settled operations base → outcome limit done base owner =
        enter limit done opener (outer ++ base) (p.stage (frames ++ base) owner))
  | fails (x : ParseError) (h : ∀ limit done base owner, Settled operations base →
      outcome limit done base owner = .error x)
  | completes (e : Expr) (h : ∀ limit done base owner, Settled operations base →
      outcome limit done base owner = onValue limit done e base owner t?)

theorem Within.congr {t? : Option Token}
    {outcome outcome' : Nat → List Statement → List Frame → Owner → Except ParseError State}
    (h : Within t? outcome) (heq : ∀ limit done base owner, Settled operations base →
      outcome' limit done base owner = outcome limit done base owner) : Within t? outcome' := by
  cases h with
  | moves p frames h =>
      exact .moves p frames fun _ _ _ _ hbase => (heq _ _ _ _ hbase).trans (h _ _ _ _ hbase)
  | opens opener outer p frames h =>
      exact .opens opener outer p frames
        fun _ _ _ _ hbase => (heq _ _ _ _ hbase).trans (h _ _ _ _ hbase)
  | fails x h => exact .fails x fun _ _ _ _ hbase => (heq _ _ _ _ hbase).trans (h _ _ _ _ hbase)
  | completes e h =>
      exact .completes e fun _ _ _ _ hbase => (heq _ _ _ _ hbase).trans (h _ _ _ _ hbase)

theorem within_onFactor (frames : List Frame) (t? : Option Token) :
    Within t? fun limit done base owner => onFactor limit done (frames ++ base) owner t? := by
  cases t? with
  | none => exact .fails _ fun _ _ _ _ _ => rfl
  | some t =>
      simp only [onFactor]
      cases t.kind with
      | integer => exact .moves (.operand _) frames fun _ _ _ _ _ => rfl
      | float => exact .moves (.operand _) frames fun _ _ _ _ _ => rfl
      | identifier => exact .moves (.name t) frames fun _ _ _ _ _ => rfl
      | operator =>
          cases UnaryOp.ofSymbol? t.text with
          | none => exact .fails _ fun _ _ _ _ _ => rfl
          | some op => exact .opens t frames .factor (.sign op :: frames) fun _ _ _ _ _ => rfl
      | punctuation =>
          by_cases htext : t.text = "("
          · simp only [htext, if_true]
            exact .opens t frames .factor (.parens :: frames) fun _ _ _ _ _ => rfl
          · simp only [htext, if_false]
            exact .fails _ fun _ _ _ _ _ => rfl
      | keyword => exact .fails _ fun _ _ _ _ _ => rfl
      | string => exact .fails _ fun _ _ _ _ _ => rfl

theorem within_onValue (e : Expr) (hframes : Settled operations frames) (t? : Option Token) :
    Within t? fun limit done base owner => onValue limit done e (frames ++ base) owner t? := by
  cases frames with
  | nil => exact .completes e fun _ _ _ _ _ => rfl
  | cons frame frames =>
      cases frame with
      | left operand op => exact absurd (mem_operations op) hframes
      | sign op => exact absurd hframes id
      | parens =>
          simp only [List.cons_append, onValue]
          split
          · exact .moves (.operand e) frames fun _ _ _ _ _ => rfl
          · exact .fails _ fun _ _ _ _ _ => rfl
      | argument function earlier =>
          simp only [List.cons_append, onValue]
          split
          · exact .moves .factor (.argument function (e :: earlier) :: frames)
              fun _ _ _ _ _ => rfl
          · split
            · exact .moves (.operand _) frames fun _ _ _ _ _ => rfl
            · exact .fails _ fun _ _ _ _ _ => rfl

theorem settle_append {ops : List BinaryOp} (hbase : Settled ops base) (e : Expr)
    (frames : List Frame) :
    settle ops e (frames ++ base) =
      ((settle ops e frames).1, (settle ops e frames).2 ++ base) := by
  induction frames generalizing e with
  | nil => exact hbase.settle_eq e
  | cons frame frames ih =>
      cases frame with
      | left operand op =>
          simp only [List.cons_append, settle]
          split
          · exact ih _
          · rfl
      | sign op => exact ih _
      | parens => rfl
      | argument function earlier => rfl

theorem settled_settle (ops : List BinaryOp) (e : Expr) (frames : List Frame) :
    Settled ops (settle ops e frames).2 := by
  induction frames generalizing e with
  | nil => trivial
  | cons frame frames ih =>
      cases frame with
      | left operand op =>
          by_cases hmem : op ∈ ops
          · rw [settle_left_of_mem hmem]
            exact ih _
          · rw [settle, if_neg hmem]
            exact hmem
      | sign op => exact ih _
      | parens => trivial
      | argument function earlier => trivial

theorem within_onOperand (e : Expr) (frames : List Frame) (t? : Option Token) :
    Within t? fun limit done base owner => onOperand limit done e (frames ++ base) owner t? := by
  cases hproduct : t?.bind (Expr.operation? BinaryOp.products) with
  | some op =>
      refine .moves .factor (.left (settle BinaryOp.products e frames).1 op ::
        (settle BinaryOp.products e frames).2) ?_
      intro limit done base owner hbase
      simp only [onOperand, hproduct, settle_append hbase.products]
      rfl
  | none =>
      cases hsum : t?.bind (Expr.operation? BinaryOp.sums) with
      | some op =>
          refine .moves .factor (.left (settle operations e frames).1 op ::
            (settle operations e frames).2) ?_
          intro limit done base owner hbase
          simp only [onOperand, hproduct, hsum, settle_append hbase]
          rfl
      | none =>
          have hvalue : ∀ limit done base owner, Settled operations base →
              onOperand limit done e (frames ++ base) owner t? =
                onValue limit done (settle operations e frames).1
                  ((settle operations e frames).2 ++ base) owner t? := by
            intro limit done base owner hbase
            simp only [onOperand, hproduct, hsum, settle_append hbase]
          exact (within_onValue _ (settled_settle operations e frames) t?).congr hvalue

theorem within_onName (t : Token) (frames : List Frame) (t? : Option Token) :
    Within t? fun limit done base owner => onName limit done t (frames ++ base) owner t? := by
  simp only [onName]
  split
  · exact .opens t frames (.opened t.text) frames fun _ _ _ _ _ => rfl
  · exact within_onOperand (.var t.text) frames t?

theorem within_step (p : Point) (frames : List Frame) (t? : Option Token) :
    Within t? fun limit done base owner =>
      step limit ⟨done, p.stage (frames ++ base) owner⟩ t? := by
  cases p with
  | factor => exact within_onFactor frames t?
  | name t => exact within_onName t frames t?
  | opened function =>
      simp only [Point.stage, step_opened]
      split
      · exact .moves (.operand _) frames fun _ _ _ _ _ => rfl
      · exact within_onFactor (.argument function [] :: frames) t?
  | operand e => exact within_onOperand e frames t?

/-! Runs within a value. -/

@[simp] theorem levels_append (frames base : List Frame) :
    levels (frames ++ base) = levels frames + levels base := by
  induction frames with
  | nil => simp
  | cons frame frames ih =>
      rw [List.cons_append, levels, levels, ih]
      omega

/-- Where the input may end within a value, the value goes on with the frames below it. -/
theorem run_operand_on_base {operand : Expr}
    (h : run n ⟨[], .operand operand frames .expression⟩ [] = .ok ⟨[.expression e]⟩)
    (hrest : Ended rest) :
    run limit ⟨done, .operand operand (frames ++ base) owner⟩ rest =
      run limit ⟨done, .operand e base owner⟩ rest := by
  induction frames generalizing operand with
  | nil =>
      cases h
      rfl
  | cons frame frames ih =>
      cases frame with
      | left left op =>
          have hjoin {limit done owner us} (frames : List Frame) (hend : Ended us) :
              run limit ⟨done, .operand operand (.left left op :: frames) owner⟩ us =
                run limit ⟨done, .operand (.binary op left operand) frames owner⟩ us :=
            run_congr (step_operand_left_of_not_product hend.1 op left)
          rw [hjoin frames ⟨rfl, rfl⟩] at h
          exact (hjoin (frames ++ base) hrest).trans (ih h)
      | sign op =>
          rw [run_operand_sign] at h
          exact (run_operand_sign op rest).trans (ih h)
      | parens => cases h
      | argument function earlier => cases h

/-- More tokens after a complete statement are another statement. -/
theorem run_start_ne_singleton (limit : Nat) (x y : Statement) (t : Token) (us : List Token) :
    run limit ⟨[x], .start⟩ (t :: us) ≠ .ok ⟨[y]⟩ := by
  intro h
  rcases adds_step limit .start (some t) with ⟨error, herror⟩ | ⟨more, stage, hmore, hstage⟩
  · rw [run_cons_of_error (herror [x])] at h
    cases h
  · rw [run_cons_of_ok (hmore [x])] at h
    obtain ⟨others, hothers, hne⟩ := exists_more h
    have hlength := congrArg List.length hothers
    have hpos := List.length_pos_iff.mpr (hne (hstage rfl))
    simp only [List.length_append, List.length_reverse, List.length_singleton] at hlength
    omega

/-- What becomes of a value that stands on frames, by what becomes of it alone: it is taken, or it
is refused for its depth at the same token. -/
inductive Carried (e : Expr) (alone outcome next : Except ParseError Program) : Prop
  | taken (halone : alone = .ok ⟨[.expression e]⟩) (houtcome : outcome = next)
  | refused (t : Token) (halone : alone = .error ⟨t, .shallowerExpression⟩)
      (houtcome : outcome = .error ⟨t, .shallowerExpression⟩)

theorem Carried.guarded {alone outcome next : Except ParseError Program}
    (h : Carried e alone outcome next) :
    Guarded (alone = .ok ⟨[.expression e]⟩) outcome next := by
  cases h with
  | taken halone houtcome => exact ⟨fun _ => houtcome, fun hnot => absurd halone hnot⟩
  | refused t halone houtcome =>
      refine ⟨?_, fun _ => ⟨t, houtcome⟩⟩
      intro hok
      cases halone.symm.trans hok

theorem carried_of_end {operand : Expr}
    (h : run n ⟨[], .operand operand (frames ++ []) .expression⟩ [] = .ok ⟨[.expression e]⟩)
    (hrest : Ended rest) :
    Carried e (run m ⟨[], .operand operand (frames ++ []) .expression⟩ [])
      (run limit ⟨done, .operand operand (frames ++ base) owner⟩ rest)
      (run limit ⟨done, .operand e base owner⟩ rest) := by
  have hframes : run n ⟨[], .operand operand frames .expression⟩ [] = .ok ⟨[.expression e]⟩ := by
    rwa [List.append_nil] at h
  have halone : run m ⟨[], .operand operand (frames ++ []) .expression⟩ [] =
      run m ⟨[], .operand e [] .expression⟩ [] := run_operand_on_base hframes Follows.nil.ended
  exact .taken halone (run_operand_on_base hframes hrest)

/-- The run on the frames below has so many levels open already, and is compared with a run that has
none below and that much less of a limit. That the value is an expression may be known under another
limit. -/
theorem run_on_base (p : Point) (frames : List Frame) (hbase : Settled operations base)
    (hrest : Ended rest) (hopen : NotOpen rest) (hlimit : levels base + m = limit)
    {us : List Token}
    (h : run n ⟨[], p.stage (frames ++ []) .expression⟩ us = .ok ⟨[.expression e]⟩) :
    Carried e (run m ⟨[], p.stage (frames ++ []) .expression⟩ us)
      (run limit ⟨done, p.stage (frames ++ base) owner⟩ (us ++ rest))
      (run limit ⟨done, .operand e base owner⟩ rest) := by
  have hnone : Settled operations [] := trivial
  induction us generalizing p frames with
  | nil =>
      cases p with
      | factor => cases h
      | opened function => cases h
      | name t =>
          have hnil : NotOpen [] := nofun
          simp only [Point.stage, run_name_of_notOpen hnil, List.nil_append,
            run_name_of_notOpen hopen] at h ⊢
          exact carried_of_end h hrest
      | operand operand => exact carried_of_end h hrest
  | cons t us ih =>
      rw [List.cons_append]
      cases within_step p frames (some t) with
      | moves q next hstep =>
          have halone := fun k => hstep k [] [] .expression hnone
          rw [run_cons_of_ok (halone n)] at h
          rw [run_cons_of_ok (halone m), run_cons_of_ok (hstep limit done base owner hbase)]
          exact ih q next h
      | opens opener outer q next hstep =>
          have halone := fun k => hstep k [] [] .expression hnone
          have hunder := hstep limit done base owner hbase
          -- There is room for one more level on the base just where there is room for it alone.
          have hroom : levels (outer ++ base) < limit ↔ levels (outer ++ []) < m := by
            simp only [levels_append, levels_nil]
            omega
          have hopened : run n ⟨[], q.stage (next ++ []) .expression⟩ us =
              .ok ⟨[.expression e]⟩ := by
            by_cases hn : levels (outer ++ []) < n
            · rwa [run_cons_of_ok ((halone n).trans (if_pos hn))] at h
            · rw [run_cons_of_error ((halone n).trans (if_neg hn))] at h
              cases h
          by_cases hm : levels (outer ++ []) < m
          · rw [run_cons_of_ok ((halone m).trans (if_pos hm)),
              run_cons_of_ok (hunder.trans (if_pos (hroom.mpr hm)))]
            exact ih q next hopened
          · exact .refused opener (run_cons_of_error ((halone m).trans (if_neg hm)))
              (run_cons_of_error (hunder.trans (if_neg (mt hroom.mp hm))))
      | fails x hstep =>
          rw [run_cons_of_error (hstep n [] [] .expression hnone)] at h
          cases h
      | completes value hstep =>
          -- A value that is complete before its last token is a statement, and there are more.
          have hstart : run n ⟨[], p.stage (frames ++ []) .expression⟩ (t :: us) =
              run n ⟨[.expression value], .start⟩ (t :: us) :=
            run_congr (hstep n [] [] .expression hnone)
          exact absurd (hstart.symm.trans h) (run_start_ne_singleton n _ _ t us)

/-! Expressions. -/

/-- Tokens that are an expression on their own are read from where a factor is due. -/
theorem factor_due {ts : List Token} (h : Program.ofTokensWithin n ts = .ok ⟨[.expression e]⟩) :
    Next StartsFactor ts ∧ ∀ limit done, run limit ⟨done, .start⟩ ts =
      run limit ⟨done, .factor [] .expression⟩ ts := by
  rw [Program.ofTokensWithin_eq_ok_iff] at h
  cases h with
  | cons hstatement _ =>
      cases hstatement with
      | expression hstart hvalue =>
          have hdef := Statement.not_def_of_starts hvalue.starts
          have htarget := Statement.target?_eq_none_iff.mpr (hstart trivial)
          refine ⟨hvalue.starts, ?_⟩
          intro limit done
          cases ts with
          | nil =>
              obtain ⟨t, ht, _⟩ := hvalue.starts
              cases ht
          | cons t us => exact run_start_eq_factor hdef htarget

/-- Tokens that are an expression on their own are taken whole wherever a factor is due and nothing
goes on with it, as long as their levels are left. -/
theorem expression_taken {us : List Token} (h : Program.ofTokens us = .ok ⟨[.expression e]⟩)
    (hbase : Settled operations base) (hrest : Ended rest) (hopen : NotOpen rest)
    (hlevels : levels base ≤ limit) :
    Guarded (levels base + Program.nesting us ≤ limit)
      (run limit ⟨done, .factor base owner⟩ (us ++ rest))
      (run limit ⟨done, .operand e base owner⟩ rest) := by
  obtain ⟨_, hdue⟩ := factor_due h
  have hwithin := Program.ofTokensWithin_eq_ok_iff_nesting_le h (limit - levels base)
  rw [Program.ofTokens] at h
  rw [ofTokensWithin_eq_run, hdue] at h hwithin
  have hcarried : Carried e (run (limit - levels base) ⟨[], .factor [] .expression⟩ us)
      (run limit ⟨done, .factor base owner⟩ (us ++ rest))
      (run limit ⟨done, .operand e base owner⟩ rest) :=
    run_on_base .factor [] hbase hrest hopen (Nat.add_sub_of_le hlevels) h
  apply hcarried.guarded.congr
  rw [hwithin]
  omega

end Machine

end ExprFront
