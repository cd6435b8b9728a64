/-!
Sets of numbers given by their intervals.
-/

namespace ExprFront.Text

/-- Intervals of numbers, both ends included, in increasing order. -/
abbrev Ranges := List (Nat × Nat)

/-- Whether a number lies in one of the intervals. An interval that starts above the number
ends the search, since the later ones start higher still. -/
def Ranges.contains : Ranges → Nat → Bool
  | [], _ => false
  | (lo, hi) :: rest, n =>
      if n < lo then false else if n ≤ hi then true else Ranges.contains rest n

theorem Ranges.exists_of_contains {ranges : Ranges} {n : Nat} (h : ranges.contains n = true) :
    ∃ r ∈ ranges, r.1 ≤ n ∧ n ≤ r.2 := by
  induction ranges with
  | nil => simp [Ranges.contains] at h
  | cons r rest ih =>
      obtain ⟨lo, hi⟩ := r
      simp only [Ranges.contains] at h
      split at h
      · contradiction
      · split at h
        · exact ⟨_, List.mem_cons_self, by omega, by omega⟩
        · obtain ⟨r, hr, hn⟩ := ih h
          exact ⟨r, List.mem_cons_of_mem _ hr, hn⟩

end ExprFront.Text
