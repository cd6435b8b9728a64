import ExprFront.Proofs.Walk
import ExprFront.Proofs.Walk.Unrolled

/-!
Walks beside phrases. A walk reads as a phrase does where it comes to an end, and to what the
phrase makes of the tokens ahead. How many tokens are ahead at most goes through all of it: a loop
that goes on to another round has passed a token, and what stands behind a token has fewer ahead.
-/

namespace ExprFront

/-- From one walker to a later one: the index has not gone back and is not past the end, no level
is left open, and each round that went on to another in between has passed a token. -/
structure Onward (ts : List Token) (w after : Walker) : Prop where
  place_le : w.place ≤ after.place
  le_length : after.place ≤ ts.length
  depth_eq : after.depth = w.depth
  rounds : ∃ later, after.rounds = w.rounds ++ later ∧
    ∀ r ∈ later, r.first < r.next ∧ r.next ≤ after.place

namespace Onward

variable {ts : List Token} {w v after : Walker}

theorem refl (h : w.place ≤ ts.length) : Onward ts w w where
  place_le := Nat.le_refl _
  le_length := h
  depth_eq := rfl
  rounds := ⟨[], (List.append_nil _).symm, List.forall_mem_nil _⟩

theorem trans (h : Onward ts w v) (h' : Onward ts v after) : Onward ts w after where
  place_le := Nat.le_trans h.place_le h'.place_le
  le_length := h'.le_length
  depth_eq := h'.depth_eq.trans h.depth_eq
  rounds := by
    obtain ⟨later, hlater, hrounds⟩ := h.rounds
    obtain ⟨later', hlater', hrounds'⟩ := h'.rounds
    refine ⟨later ++ later', by rw [hlater', hlater, List.append_assoc], ?_⟩
    rw [List.forall_mem_append]
    exact ⟨fun r hr => ⟨(hrounds r hr).1, Nat.le_trans (hrounds r hr).2 h'.place_le⟩, hrounds'⟩

end Onward

namespace Walk

variable {α β : Type} {ts : List Token} {limit bound depth : Nat}

theorem bind_of_error {q : Walk α} {w after : Walker} {e : ParseError}
    (h : q w = some (.error e, after)) (f : α → Walk β) :
    (q >>= f) w = some (.error e, after) := by
  change (q w).bind _ = _
  rw [h]
  rfl

theorem bind_of_ok {q : Walk α} {w after : Walker} {a : α} (h : q w = some (.ok a, after))
    (f : α → Walk β) : (q >>= f) w = f a after := by
  change (q w).bind _ = _
  rw [h]
  rfl

/-- A walk from here comes to an end. It goes onward, and comes to what a phrase makes of some
tokens ahead. -/
def EndsAs (ts : List Token) (w : Walker) (q : Walk α) (p : Phrase α) (ahead : List Token) : Prop :=
  ∃ outcome after, q w = some (outcome, after) ∧ Onward ts w after ∧
    p.read ahead = outcome.map fun a => (a, ts.drop after.place)

/-- From a depth on, and where fewer than so many tokens are ahead, a walk ends as a phrase does. -/
def Reads (ts : List Token) (bound depth : Nat) (q : Walk α) (p : Phrase α) : Prop :=
  ∀ w : Walker, w.place ≤ ts.length → w.depth = depth → ts.length < w.place + bound →
    EndsAs ts w q p (ts.drop w.place)

theorem Reads.zero (depth : Nat) (q : Walk α) (p : Phrase α) : Reads ts 0 depth q p := by
  intro w hplace hdepth hbound
  omega

theorem Reads.mono {bound' : Nat} {q : Walk α} {p : Phrase α} (h : Reads ts bound depth q p)
    (hle : bound' ≤ bound) : Reads ts bound' depth q p :=
  fun w hplace hdepth hbound => h w hplace hdepth (by omega)

theorem Reads.pure (a : α) : Reads ts bound depth (Pure.pure a) (Pure.pure a) :=
  fun w hplace _ _ => ⟨.ok a, w, rfl, .refl hplace, rfl⟩

/-- What comes second may count on fewer tokens, where the first takes some. -/
theorem Reads.bind_of_length (bound' : α → Nat) {q : Walk α} {p : Phrase α} {g : α → Walk β}
    {f : α → Phrase β} (h : Reads ts bound depth q p)
    (hlength : ∀ us a rest, us.length < bound → p.read us = .ok (a, rest) →
      rest.length < bound' a)
    (hnext : ∀ a, Reads ts (bound' a) depth (g a) (f a)) :
    Reads ts bound depth (q >>= g) (p >>= f) := by
  intro w hplace hdepth hbound
  obtain ⟨outcome, v, hq, honward, hread⟩ := h w hplace hdepth hbound
  cases outcome with
  | error e =>
      refine ⟨.error e, v, bind_of_error hq g, honward, ?_⟩
      rw [Phrase.read_bind, hread]
      rfl
  | ok a =>
      have hahead := hlength _ _ _ (by rw [List.length_drop]; omega) hread
      rw [List.length_drop] at hahead
      have hle := honward.le_length
      obtain ⟨outcome, after, hg, honward', hread'⟩ :=
        hnext a v hle (honward.depth_eq.trans hdepth) (by omega)
      refine ⟨outcome, after, (bind_of_ok hq g).trans hg, honward.trans honward', ?_⟩
      rw [Phrase.read_bind, hread]
      exact hread'

theorem Reads.bind {q : Walk α} {p : Phrase α} {g : α → Walk β} {f : α → Phrase β}
    (h : Reads ts bound depth q p) (hnext : ∀ a, Reads ts bound depth (g a) (f a)) :
    Reads ts bound depth (q >>= g) (p >>= f) :=
  .bind_of_length (fun _ => bound) h
    (fun _ _ _ hus hread => Nat.lt_of_le_of_lt (p.length_le hread) hus) hnext

theorem Reads.map {q : Walk α} {p : Phrase α} (h : Reads ts bound depth q p) (f : α → β) :
    Reads ts bound depth (q >>= fun a => Pure.pure (f a)) (f <$> p) :=
  h.bind fun a => .pure (f a)

/-! Single tokens. -/

theorem Reads.check (kind : Token.Kind) (text : String) :
    Reads ts bound depth (check ts kind text) (Phrase.nextIs kind text) := by
  intro w hplace _ _
  refine ⟨.ok (ts[w.place]?.any (·.is kind text)), w, rfl, .refl hplace, ?_⟩
  rw [← List.head?_drop]
  rfl

theorem Reads.atEnd : Reads ts bound depth (atEnd ts) Phrase.atEnd := by
  intro w hplace _ _
  refine ⟨.ok (ts.length ≤ w.place), w, rfl, .refl hplace, ?_⟩
  have hempty : (ts.drop w.place).isEmpty = decide (ts.length ≤ w.place) := by
    rw [Bool.eq_iff_iff, List.isEmpty_iff, List.drop_eq_nil_iff, decide_eq_true_iff]
  change Except.ok ((ts.drop w.place).isEmpty, _) = _
  rw [hempty]
  rfl

theorem lt_length_of_peeked {i : Nat} {t : Token} (h : ts[i]? = some t) : i < ts.length :=
  (List.getElem?_eq_some_iff.mp h).1

theorem drop_of_peeked {i : Nat} {t : Token} (h : ts[i]? = some t) :
    ts.drop i = t :: ts.drop (i + 1) := by
  obtain ⟨hlt, rfl⟩ := List.getElem?_eq_some_iff.mp h
  exact List.drop_eq_getElem_cons hlt

theorem drop_of_end {i : Nat} (h : ts[i]? = none) : ts.drop i = [] :=
  List.drop_eq_nil_iff.mpr (List.getElem?_eq_none_iff.mp h)

theorem peek_of {w : Walker} {t? : Option Token} (h : ts[w.place]? = t?) :
    peek ts w = some (.ok t?, w) := by
  subst h
  rfl

theorem advance_of_peeked {w : Walker} {t : Token} (h : ts[w.place]? = some t) :
    advance ts w = some (.ok (), { w with place := w.place + 1 }) := by
  change some (Except.ok (), if w.place < ts.length then _ else w) = _
  rw [if_pos (lt_length_of_peeked h)]

theorem onward_of_peeked {w : Walker} {t : Token} (h : ts[w.place]? = some t) :
    Onward ts w { w with place := w.place + 1 } where
  place_le := Nat.le_succ _
  le_length := lt_length_of_peeked h
  depth_eq := rfl
  rounds := ⟨[], (List.append_nil _).symm, List.forall_mem_nil _⟩

theorem eat_of_end {w : Walker} (h : ts[w.place]? = none) (value? : Token → Option α) :
    eat ts value? w = some (.ok none, w) := by
  rw [eat, bind_of_ok (peek_of h)]
  rfl

theorem eat_of_none {w : Walker} {t : Token} (h : ts[w.place]? = some t)
    {value? : Token → Option α} (hvalue : value? t = none) :
    eat ts value? w = some (.ok none, w) := by
  rw [eat, bind_of_ok (peek_of h), Option.bind_some, hvalue]
  rfl

theorem eat_of_some {w : Walker} {t : Token} (h : ts[w.place]? = some t)
    {value? : Token → Option α} {a : α} (hvalue : value? t = some a) :
    eat ts value? w = some (.ok (some a), { w with place := w.place + 1 }) := by
  rw [eat, bind_of_ok (peek_of h), Option.bind_some, hvalue]
  exact bind_of_ok (advance_of_peeked h) _

theorem Reads.eat (value? : Token → Option α) :
    Reads ts bound depth (eat ts value?) (Phrase.take? value?) := by
  intro w hplace _ _
  cases htoken : ts[w.place]? with
  | none =>
      refine ⟨.ok none, w, eat_of_end htoken value?, .refl hplace, ?_⟩
      rw [drop_of_end htoken]
      rfl
  | some t =>
      rw [drop_of_peeked htoken]
      cases hvalue : value? t with
      | none =>
          refine ⟨.ok none, w, eat_of_none htoken hvalue, .refl hplace, ?_⟩
          simp only [Phrase.take?, hvalue, Except.map, drop_of_peeked htoken]
      | some a =>
          refine ⟨.ok (some a), _, eat_of_some htoken hvalue, onward_of_peeked htoken, ?_⟩
          simp only [Phrase.take?, hvalue, Except.map]

theorem take_of_end {w : Walker} (h : ts[w.place]? = none) (value? : Token → Option α)
    (expected : Expected) :
    take ts value? expected w = some (.error ⟨none, expected⟩, w) := by
  rw [take, bind_of_ok (peek_of h), bind_of_ok (eat_of_end h value?)]
  rfl

theorem take_of_none {w : Walker} {t : Token} (h : ts[w.place]? = some t)
    {value? : Token → Option α} (hvalue : value? t = none) (expected : Expected) :
    take ts value? expected w = some (.error ⟨t, expected⟩, w) := by
  rw [take, bind_of_ok (peek_of h), bind_of_ok (eat_of_none h hvalue)]
  rfl

theorem take_of_some {w : Walker} {t : Token} (h : ts[w.place]? = some t)
    {value? : Token → Option α} {a : α} (hvalue : value? t = some a) (expected : Expected) :
    take ts value? expected w = some (.ok a, { w with place := w.place + 1 }) := by
  rw [take, bind_of_ok (peek_of h), bind_of_ok (eat_of_some h hvalue)]
  rfl

theorem Reads.take (value? : Token → Option α) (expected : Expected) :
    Reads ts bound depth (take ts value? expected) (Phrase.take value? expected) := by
  intro w hplace _ _
  cases htoken : ts[w.place]? with
  | none =>
      refine ⟨.error ⟨none, expected⟩, w, take_of_end htoken _ _, .refl hplace, ?_⟩
      rw [drop_of_end htoken]
      rfl
  | some t =>
      rw [drop_of_peeked htoken]
      cases hvalue : value? t with
      | none =>
          refine ⟨.error ⟨t, expected⟩, w, take_of_none htoken hvalue _, .refl hplace, ?_⟩
          simp only [Phrase.take, hvalue, Except.map]
      | some a =>
          refine ⟨.ok a, _, take_of_some htoken hvalue _, onward_of_peeked htoken, ?_⟩
          simp only [Phrase.take, hvalue, Except.map]

theorem Reads.expect (kind : Token.Kind) (text : String) :
    Reads ts bound depth (expect ts kind text) (Phrase.expect kind text) :=
  .take _ _

theorem Reads.identifier (expected : Expected) :
    Reads ts bound depth (identifier ts expected) (Phrase.identifier expected) :=
  .take _ _

/-! Loops. -/

/-- Whoever asks for the index may count on it. -/
theorem Reads.here {f : Nat → Walk α} {p : Phrase α}
    (h : ∀ first, ts.length < first + bound → Reads ts (ts.length + 1 - first) depth (f first) p) :
    Reads ts bound depth (here >>= f) p := by
  intro w hplace hdepth hbound
  have hhere : Walk.here w = some (.ok w.place, w) := rfl
  rw [EndsAs, bind_of_ok hhere]
  exact h w.place hbound w hplace hdepth (by omega)

/-- With a token passed since the first, a round went forward, and the next has fewer ahead. -/
theorem Reads.goOn {loop : Loop} {first : Nat} {q : Walk α} {p : Phrase α}
    (h : Reads ts bound depth q p) (hfirst : ts.length < first + (bound + 1)) :
    Reads ts (ts.length - first) depth (goOn loop first >>= fun _ => q) p := by
  intro w hplace hdepth hbound
  have hnoted : Walk.goOn loop first w =
      some (.ok (), { w with rounds := w.rounds ++ [⟨loop, first, w.place⟩] }) := rfl
  have honward : Onward ts w { w with rounds := w.rounds ++ [⟨loop, first, w.place⟩] } := by
    refine ⟨Nat.le_refl _, hplace, rfl, _, rfl, ?_⟩
    rw [List.forall_mem_singleton]
    exact ⟨by change first < w.place; omega, Nat.le_refl _⟩
  obtain ⟨outcome, after, hq, honward', hread⟩ :=
    h { w with rounds := w.rounds ++ [⟨loop, first, w.place⟩] } hplace hdepth
      (by change _ < w.place + _; omega)
  exact ⟨outcome, after, (bind_of_ok hnoted _).trans hq, honward.trans honward', hread⟩

/-- What stands behind a sign has fewer tokens ahead than the first token of the round. -/
theorem Reads.eat_bind {first : Nat} {value? : Token → Option β} {g : Option β → Walk α}
    {f : Option β → Phrase α}
    (hnone : Reads ts (ts.length + 1 - first) depth (g none) (f none))
    (hsome : ∀ b, Reads ts (ts.length - first) depth (g (some b)) (f (some b))) :
    Reads ts (ts.length + 1 - first) depth (Walk.eat ts value? >>= g)
      (Phrase.take? value? >>= f) := by
  refine .bind_of_length
    (fun b? => b?.elim (ts.length + 1 - first) fun _ => ts.length - first) (.eat value?) ?_ ?_
  · intro us b? rest hus hread
    cases b? with
    | none => exact Nat.lt_of_le_of_lt (Phrase.length_le _ hread) hus
    | some b =>
        have hshorter := Phrase.take?_advances value? us b rest hread
        change rest.length < ts.length - first
        omega
  · intro b?
    cases b? with
    | none => exact hnone
    | some b => exact hsome b

/-- A loop that goes on behind a sign, and then reads an operand. -/
theorem Reads.joins (loop : Loop) {walk : Expr → Walk Expr} {ops : List BinaryOp}
    {operand : Walk Expr} {operand' : Phrase Expr}
    (hwalk : ∀ left, walk left = do
      let first ← Walk.here
      match ← Walk.eat ts (Expr.operation? ops) with
      | none => return left
      | some op =>
          let right ← operand
          Walk.goOn loop first
          walk (.binary op left right))
    (hoperand : Reads ts bound depth operand operand') (left : Expr) :
    Reads ts bound depth (walk left) (Expr.joinFrom ops operand' left) := by
  -- The tokens ahead bound the rounds: behind a sign one fewer is ahead than at the round's first.
  induction bound generalizing left with
  | zero => exact .zero _ _ _
  | succ bound ih =>
      rw [hwalk, Expr.joinFrom_eq]
      apply Reads.here
      intro first hfirst
      apply Reads.eat_bind
      · exact .pure left
      · intro op
        apply Reads.bind (hoperand.mono (by omega))
        intro right
        exact .goOn (ih (hoperand.mono (Nat.le_succ _)) _) hfirst

/-- A loop that reads an item and goes on behind a comma. -/
theorem Reads.items (loop : Loop) {walk : List α → Walk (List α)} {item : List α → Walk α}
    {item' : List α → Phrase α}
    (hwalk : ∀ done, walk done = do
      let first ← Walk.here
      let a ← item done
      match ← Walk.eat ts (sign? .punctuation ",") with
      | none => return a :: done
      | some () =>
          Walk.goOn loop first
          walk (a :: done))
    (hitem : ∀ done, Reads ts bound depth (item done) (item' done)) (done : List α) :
    Reads ts bound depth (walk done)
      (item' done >>= fun a => Phrase.itemsFrom item' (a :: done)) := by
  induction bound generalizing done with
  | zero => exact .zero _ _ _
  | succ bound ih =>
      rw [hwalk]
      apply Reads.here
      intro first hfirst
      apply Reads.bind ((hitem done).mono (by omega))
      intro a
      rw [Phrase.itemsFrom_eq]
      apply Reads.eat_bind
      · exact .pure (a :: done)
      · intro _
        exact .goOn (ih (fun done => (hitem done).mono (Nat.le_succ _)) _) hfirst

/-- A loop that reads items until it is finished. No sign is passed in its rounds, so that the
items have to pass tokens themselves. -/
theorem Reads.until (loop : Loop) {walk : List α → Walk (List α)} {finished : Walk Bool}
    {finished' : Phrase Bool} {item : Walk α} {item' : Phrase α}
    (hwalk : ∀ done, walk done = do
      let first ← Walk.here
      if ← finished then return done
      else
        let a ← item
        Walk.goOn loop first
        walk (a :: done))
    (hfinished : Reads ts bound depth finished finished')
    (hitem : Reads ts bound depth item item') (hconsumes : item'.Consumes)
    (advances : ∀ done, (Phrase.another finished' ((· :: done) <$> item')).Advances)
    (done : List α) :
    Reads ts bound depth (walk done)
      (Phrase.iterate (fun done => Phrase.another finished' ((· :: done) <$> item')) advances
        done) := by
  induction bound generalizing done with
  | zero => exact .zero _ _ _
  | succ bound ih =>
      rw [hwalk, Phrase.iterate_another_eq]
      apply Reads.here
      intro first hfirst
      apply Reads.bind (hfinished.mono (by omega))
      intro isFinished
      cases isFinished with
      | true => exact .pure done
      | false =>
          refine .bind_of_length (fun _ => ts.length - first) (hitem.mono (by omega)) ?_ ?_
          · intro us a rest hus hread
            have hshorter := hconsumes us a rest hread
            omega
          · intro a
            exact .goOn (ih (hfinished.mono (Nat.le_succ _)) (hitem.mono (Nat.le_succ _)) _) hfirst

theorem Reads.parenthesised {items : Walk (List α)} {item' : List α → Phrase α}
    (h : Reads ts bound depth items (Phrase.itemsReversed item')) :
    Reads ts bound depth (parenthesised ts items) (Phrase.parenthesised item') := by
  have hclose : ∀ reversed : List α, Reads ts bound depth
      (Walk.expect ts .punctuation ")" >>= fun _ => Pure.pure reversed.reverse)
      (Phrase.expect .punctuation ")" >>= fun _ => Pure.pure reversed.reverse) :=
    fun reversed => .bind (.expect _ _) fun _ => .pure _
  apply Reads.bind (.expect _ _)
  intro _
  apply Reads.bind (.check _ _)
  intro isEmpty
  cases isEmpty with
  | true => exact .bind (.pure []) hclose
  | false => exact .bind h hclose

/-! Levels. -/

/-- What a level holds, and then the level is closed. -/
def closing (body : Walk α) : Walk α := fun w => do
  let (outcome, w) ← body w
  return (outcome, w.leave)

theorem Reads.level (opener : Token) {q : Walk α} {p : Phrase α} (hless : depth < limit)
    (h : Reads ts bound (depth + 1) q p) :
    Reads ts bound depth (enter limit opener >>= fun _ => closing q) p := by
  intro w hplace hdepth hbound
  have henter : enter limit opener w = some (.ok (), { w with depth := w.depth + 1 }) := by
    change (if limit ≤ w.depth then (throw _ : Walk Unit) else _) w = _
    rw [if_neg (by omega)]
    rfl
  obtain ⟨outcome, after, hq, honward, hread⟩ :=
    h { w with depth := w.depth + 1 } hplace (congrArg (· + 1) hdepth) hbound
  refine ⟨outcome, after.leave, ?_, ?_, hread⟩
  · rw [bind_of_ok henter, closing, hq]
    rfl
  · exact ⟨honward.place_le, honward.le_length,
      by simp only [Walker.leave, honward.depth_eq, Nat.add_sub_cancel], honward.rounds⟩

theorem Reads.full (opener : Token) (g : Unit → Walk α) (hfull : limit ≤ depth) :
    Reads ts bound depth (enter limit opener >>= g)
      (Phrase.failAt opener .shallowerExpression) := by
  intro w hplace hdepth _
  have henter : enter limit opener w = some (.error ⟨opener, .shallowerExpression⟩, w) := by
    change (if limit ≤ w.depth then (throw _ : Walk Unit) else _) w = _
    rw [if_pos (by omega)]
    rfl
  exact ⟨_, w, bind_of_error henter g, .refl hplace, rfl⟩

/-- What reads the factors in a level, where the limit allows for one more than are open. -/
def inner (limit depth : Nat) : Option (Phrase Expr) :=
  if depth < limit then some (Expr.factor (limit - (depth + 1))) else none

theorem factor_eq_factorWith (limit depth : Nat) :
    Expr.factor (limit - depth) = Expr.factorWith (inner limit depth) := by
  by_cases h : depth < limit
  · rw [inner, if_pos h, show limit - depth = limit - (depth + 1) + 1 by omega]
    rfl
  · rw [inner, if_neg h, Nat.sub_eq_zero_of_le (Nat.le_of_not_lt h)]
    rfl

theorem Reads.deeper (opener : Token) {q : Walk Expr} {body : Phrase Expr → Phrase Expr}
    (h : Reads ts bound (depth + 1) q (body (Expr.factor (limit - (depth + 1))))) :
    Reads ts bound depth (enter limit opener >>= fun _ => closing q)
      (Expr.deeper opener (inner limit depth) body) := by
  by_cases hless : depth < limit
  · rw [inner, if_pos hless]
    exact .level opener hless h
  · rw [inner, if_neg hless]
    exact .full opener _ (Nat.le_of_not_lt hless)

theorem Reads.deeper_bind (opener : Token) {q : Walk Expr} {body : Phrase Expr → Phrase Expr}
    (h : Reads ts bound (depth + 1) q (body (Expr.factor (limit - (depth + 1)))))
    {g : Expr → Walk Expr} {f : Expr → Phrase Expr}
    (hnext : ∀ e, Reads ts bound depth (g e) (f e)) :
    Reads ts bound depth (enter limit opener >>= fun _ => closing q >>= g)
      (Expr.deeper opener (inner limit depth) fun factor => body factor >>= f) := by
  rw [← bind_assoc, Phrase.eq_of_read_eq (Counted.read_deeper_bind opener _ body f)]
  exact .bind (.deeper opener h) hnext

end Walk

end ExprFront
