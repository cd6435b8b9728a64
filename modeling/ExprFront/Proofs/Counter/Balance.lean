import ExprFront.Proofs.Counter.Descent

/-!
The counter under watch. Every moment at which a level is opened or closed, or a factor is begun or
finished, is noted, and a level is closed only where one is open: else the reading comes to nothing.
It never does. On success and on failure the counter is given back as it was, on the way it is never
past the limit, and each level has at most one call that reads a factor.
-/

namespace ExprFront

/-- How many levels are open at a moment, and how many factors are begun and not finished. -/
structure Moment where
  depth : Nat
  factors : Nat
  deriving DecidableEq

/-- A cursor with the factors that are begun, and all moments so far. -/
structure Watch extends Cursor where
  factors : Nat
  seen : List Moment

namespace Watch

def moment (w : Watch) : Moment := ⟨w.depth, w.factors⟩

def noted (w : Watch) : Watch := { w with seen := w.seen ++ [w.moment] }

def entered (w : Watch) (opener : Token) : Watch :=
  noted { w with toCursor := w.toCursor.enter opener }

@[simp] theorem toCursor_entered (w : Watch) (opener : Token) :
    (w.entered opener).toCursor = w.toCursor.enter opener := rfl

/-- One level fewer, where one is open. -/
def leave? (w : Watch) : Option Watch :=
  match w.depth with
  | 0 => none
  | depth + 1 => some (noted { w with depth := depth })

end Watch

/-- A way to read a value under watch. There is no outcome where the counter would go below zero. -/
def Watched (α : Type) : Type :=
  Watch → Option (Except ParseError α × Watch)

namespace Watched

variable {α β : Type}

instance : Monad Watched where
  pure a := fun w => some (.ok a, w)
  bind q f := fun w =>
    match q w with
    | none => none
    | some (.error e, w) => some (.error e, w)
    | some (.ok a, w) => f a w

def ofPhrase (p : Phrase α) : Watched α := fun w =>
  some ((Counted.ofPhrase p w.toCursor).1,
    { w with toCursor := (Counted.ofPhrase p w.toCursor).2 })

def level (limit : Nat) (opener : Token) (body : Watched Expr) : Watched Expr := fun w =>
  if limit ≤ w.depth then some (.error ⟨opener, .shallowerExpression⟩, w)
  else do
    let (outcome, within) ← body (w.entered opener)
    let after ← within.leave?
    return (outcome, after)

def factor (body : Watched Expr) : Watched Expr := fun w => do
  let (outcome, within) ← body (Watch.noted { w with factors := w.factors + 1 })
  return (outcome, Watch.noted { within with factors := w.factors })

def descent (limit : Nat) : Descent Watched where
  phrase := ofPhrase
  level := level limit
  factor := factor

theorem bind_of_error {q : Watched α} {w w' : Watch} {e : ParseError}
    (h : q w = some (.error e, w')) (f : α → Watched β) : (q >>= f) w = some (.error e, w') := by
  simp only [bind, h]

theorem bind_of_ok {q : Watched α} {w w' : Watch} {a : α} (h : q w = some (.ok a, w'))
    (f : α → Watched β) : (q >>= f) w = f a w' := by
  simp only [bind, h]

end Watched

/-- What a moment may come to: no level is closed that is open at it, none is opened past the
limit, and each level that is opened comes with one factor. That many more factors may be begun. -/
structure Moment.Reaches (start : Moment) (limit spare : Nat) (m : Moment) : Prop where
  depth_ge : start.depth ≤ m.depth
  depth_le : m.depth ≤ limit
  factors_le : m.factors + start.depth ≤ start.factors + m.depth + spare

namespace Moment.Reaches

variable {limit spare depth factors : Nat} {m : Moment}

theorem refl (h : m.depth ≤ limit) : m.Reaches limit spare m where
  depth_ge := Nat.le_refl _
  depth_le := h
  factors_le := by omega

/-- A level makes up for the factor to spare in it. -/
theorem of_level (h : Moment.Reaches ⟨depth + 1, factors⟩ limit 1 m) :
    Moment.Reaches ⟨depth, factors⟩ limit 0 m where
  depth_ge := Nat.le_of_succ_le h.depth_ge
  depth_le := h.depth_le
  factors_le := by
    have hfactors := h.factors_le
    simp only at hfactors ⊢
    omega

theorem of_factor (h : Moment.Reaches ⟨depth, factors + 1⟩ limit 0 m) :
    Moment.Reaches ⟨depth, factors⟩ limit 1 m where
  depth_ge := h.depth_ge
  depth_le := h.depth_le
  factors_le := by
    have hfactors := h.factors_le
    simp only at hfactors ⊢
    omega

end Moment.Reaches

/-- Under watch a reading does what it does with the counter alone, and gives the counter back. What
it comes to meanwhile is within bounds. Around a factor there is one to spare, and in it none. -/
def Balances (limit : Nat) (inFactor : Bool) {α : Type} (q : Counted α) (q' : Watched α) : Prop :=
  ∀ w : Watch, w.depth ≤ limit → ∃ later,
    q' w = some ((q w.toCursor).1, ⟨(q w.toCursor).2, w.factors, w.seen ++ later⟩) ∧
      (q w.toCursor).2.depth = w.depth ∧
      ∀ m ∈ later, w.moment.Reaches limit (if inFactor then 0 else 1) m

namespace Balances

variable {α β : Type} {limit : Nat} {inFactor : Bool}

theorem pure (a : α) : Balances limit inFactor (Pure.pure a) (Pure.pure a) := by
  intro w hdepth
  refine ⟨[], ?_, rfl, List.forall_mem_nil _⟩
  rw [List.append_nil]
  rfl

theorem ofPhrase (p : Phrase α) :
    Balances limit inFactor (Counted.ofPhrase p) (Watched.ofPhrase p) := by
  intro w hdepth
  refine ⟨[], ?_, ?_, List.forall_mem_nil _⟩
  · rw [List.append_nil]
    rfl
  · simp only [Counted.ofPhrase]
    cases p.read w.ahead with
    | error e => rfl
    | ok r => rfl

theorem bind {q : Counted α} {q' : Watched α} {f : α → Counted β} {f' : α → Watched β}
    (h : Balances limit inFactor q q') (hnext : ∀ a, Balances limit inFactor (f a) (f' a)) :
    Balances limit inFactor (q >>= f) (q' >>= f') := by
  intro w hdepth
  obtain ⟨later, hwatched, hkept, hreaches⟩ := h w hdepth
  obtain ⟨outcome, c, hq⟩ : ∃ outcome c, q w.toCursor = (outcome, c) := ⟨_, _, rfl⟩
  rw [hq] at hwatched hkept
  cases outcome with
  | error e =>
      rw [Counted.bind_of_error hq, Watched.bind_of_error hwatched]
      exact ⟨later, rfl, hkept, hreaches⟩
  | ok a =>
      rw [Counted.bind_of_ok hq, Watched.bind_of_ok hwatched]
      obtain ⟨later', hwatched', hkept', hreaches'⟩ :=
        hnext a ⟨c, w.factors, w.seen ++ later⟩ (Nat.le_trans (Nat.le_of_eq hkept) hdepth)
      have hmoment : Watch.moment ⟨c, w.factors, w.seen ++ later⟩ = w.moment :=
        congrArg (Moment.mk · w.factors) hkept
      rw [hmoment] at hreaches'
      refine ⟨later ++ later', ?_, hkept'.trans hkept,
        List.forall_mem_append.mpr ⟨hreaches, hreaches'⟩⟩
      rw [hwatched', List.append_assoc]

theorem level {q : Counted Expr} {q' : Watched Expr} (opener : Token)
    (h : Balances limit false q q') :
    Balances limit true (Counted.within (some limit) opener q)
      (Watched.level limit opener q') := by
  intro w hdepth
  by_cases hfull : limit ≤ w.depth
  · rw [Counted.within_of_full hfull, Watched.level, if_pos hfull]
    refine ⟨[], ?_, rfl, List.forall_mem_nil _⟩
    rw [List.append_nil]
  · have hopen : w.depth < limit := Nat.lt_of_not_le hfull
    rw [Counted.within_of_open hopen, Watched.level, if_neg hfull]
    obtain ⟨later, hwatched, hkept, hreaches⟩ := h (w.entered opener) hopen
    obtain ⟨outcome, c, hq⟩ : ∃ outcome c, q (w.toCursor.enter opener) = (outcome, c) :=
      ⟨_, _, rfl⟩
    rw [Watch.toCursor_entered, hq] at hwatched hkept
    have hdepth' : c.depth = w.depth + 1 := hkept
    have hclosed : Counted.closing q (w.toCursor.enter opener) =
        (outcome, { c with depth := w.depth }) := by
      simp only [Counted.closing, hq, hdepth', Nat.add_sub_cancel]
    rw [hclosed, hwatched]
    -- The level when it is opened, what it holds, and the level when it is closed.
    refine ⟨⟨w.depth + 1, w.factors⟩ :: (later ++ [w.moment]), ?_, rfl, ?_⟩
    · simp [Watch.leave?, hdepth', Watch.noted, Watch.entered, Cursor.enter, Watch.moment]
    · simp only [List.forall_mem_cons, List.forall_mem_append]
      refine ⟨.of_level (.refl hopen), ?_, .refl hdepth, List.forall_mem_nil _⟩
      exact fun m hm => .of_level (hreaches m hm)

theorem factor {q : Counted Expr} {q' : Watched Expr} (h : Balances limit true q q') :
    Balances limit false q (Watched.factor q') := by
  intro w hdepth
  obtain ⟨later, hwatched, hkept, hreaches⟩ :=
    h (Watch.noted { w with factors := w.factors + 1 }) hdepth
  rw [Watched.factor, hwatched]
  have hkept : (q w.toCursor).2.depth = w.depth := hkept
  refine ⟨⟨w.depth, w.factors + 1⟩ :: (later ++ [w.moment]), ?_, hkept, ?_⟩
  · simp [Watch.noted, Watch.moment, hkept]
  · simp only [List.forall_mem_cons, List.forall_mem_append]
    refine ⟨.of_factor (.refl hdepth), ?_, .refl hdepth, List.forall_mem_nil _⟩
    exact fun m hm => .of_factor (hreaches m hm)

theorem relates (limit : Nat) :
    Descent.Relates (Balances limit) (Descent.counted (some limit)) (Watched.descent limit) where
  pure _ a := .pure a
  bind h hnext := h.bind hnext
  map f h := h.bind fun a => .pure (f a)
  phrase _ p := .ofPhrase p
  level opener h := h.level opener
  factor h := h.factor

end Balances

/-- Whatever part of an expression is read, and from any depth within the limit: the counter does
not go below zero, the outcome is that of the part's phrase, and with it, be it a value or an error,
the depth is what it was. In between the depth stays within the limit. -/
theorem Watched.run_balanced {limit : Nat} (part : Nonterminal) (w : Watch)
    (h : w.depth ≤ limit) :
    ∃ outcome after later, (descent limit).run part w = some (outcome, after) ∧
      Counted.Agrees ((part.phrase (limit - w.depth)).read w.ahead) (outcome, after.toCursor) ∧
      after.depth = w.depth ∧ after.seen = w.seen ++ later ∧
      ∀ m ∈ later, w.moment.Reaches limit 1 m := by
  obtain ⟨later, hwatched, hkept, hreaches⟩ := (Balances.relates limit).run part w h
  have hreads := Descent.counted_reads (Nat.add_sub_cancel' h) w.ahead.length part
  obtain ⟨_, hagrees⟩ := hreads w.toCursor rfl (Nat.le_refl _)
  exact ⟨_, _, later, hwatched, hagrees, hkept, rfl, hreaches⟩

namespace Program

/-- Under the limit of programs, and from any state within it, the depth is given back on success
and on failure, does not leave its bounds, and never are more than `maxNesting + 1` factors begun
that are not finished. -/
theorem depth_balanced (part : Nonterminal) (w : Watch) (h : w.depth ≤ maxNesting) :
    ∃ outcome after later, (Watched.descent maxNesting).run part w = some (outcome, after) ∧
      Counted.Agrees ((part.phrase (maxNesting - w.depth)).read w.ahead)
        (outcome, after.toCursor) ∧
      after.depth = w.depth ∧ after.seen = w.seen ++ later ∧
      ∀ m ∈ later, w.depth ≤ m.depth ∧ m.depth ≤ maxNesting ∧
        m.factors ≤ w.factors + (maxNesting + 1 - w.depth) := by
  obtain ⟨outcome, after, later, hrun, hagrees, hkept, hseen, hreaches⟩ :=
    Watched.run_balanced part w h
  refine ⟨outcome, after, later, hrun, hagrees, hkept, hseen, ?_⟩
  intro m hm
  obtain ⟨hge, hle, hfactors⟩ := hreaches m hm
  refine ⟨hge, hle, ?_⟩
  simp only [Watch.moment] at hfactors
  omega

/-- One level is left, and two signs are ahead. -/
def nearLimit : Watch :=
  ⟨⟨[⟨.operator, "-", ⟨1, 1⟩⟩, ⟨.operator, "-", ⟨1, 2⟩⟩, ⟨.identifier, "x", ⟨1, 3⟩⟩], 255, []⟩,
    0, []⟩

theorem depth_balanced_nearLimit :
    nearLimit.depth ≤ maxNesting ∧
      ∃ after, (Watched.descent maxNesting).run .expression nearLimit =
          some (.error ⟨some ⟨.operator, "-", ⟨1, 2⟩⟩, .shallowerExpression⟩, after) ∧
        after.depth = 255 ∧
        after.seen = [⟨255, 1⟩, ⟨256, 1⟩, ⟨256, 2⟩, ⟨256, 1⟩, ⟨255, 1⟩, ⟨255, 0⟩] ∧
        ∀ m ∈ after.seen, 255 ≤ m.depth ∧ m.depth ≤ 256 ∧ m.factors ≤ 2 := by
  have hdepth : nearLimit.depth ≤ maxNesting := by decide
  obtain ⟨outcome, after, later, hrun, _, hkept, hseen, hbounds⟩ :=
    depth_balanced .expression nearLimit hdepth
  have hrefused : (Watched.descent maxNesting).run .expression nearLimit =
      some (.error ⟨some ⟨.operator, "-", ⟨1, 2⟩⟩, .shallowerExpression⟩,
        ⟨⟨[⟨.identifier, "x", ⟨1, 3⟩⟩], 255,
            [⟨⟨.operator, "-", ⟨1, 1⟩⟩, 256⟩]⟩, 0,
          [⟨255, 1⟩, ⟨256, 1⟩, ⟨256, 2⟩, ⟨256, 1⟩, ⟨255, 1⟩, ⟨255, 0⟩]⟩) := rfl
  rw [hrefused] at hrun
  cases hrun
  refine ⟨hdepth, _, hrefused, hkept, rfl, ?_⟩
  intro m hm
  rw [hseen] at hm
  exact hbounds m hm

end Program

end ExprFront
