import ExprFront.Double.Rounding

/-!
Rounding stays within the format: a decimal comes to a finite number that has a significand of 53
bits and an exponent in range, or to infinity, and it keeps its sign.
-/

namespace ExprFront.Double

/-- The numbers of the format with a sign, those that are none apart. -/
inductive Signed (negative : Bool) : Double → Prop
  | infinity : Signed negative (infinity negative)
  | finite {significand : Nat} {exponent : Int} (hsignificand : significand < Nat.pow 2 53)
      (hleast : leastExponent ≤ exponent) (hgreatest : exponent ≤ greatestExponent) :
      Signed negative (finite negative significand exponent)

variable {negative : Bool} {x : Double}

theorem Signed.ne_nan (h : Signed negative x) : x ≠ nan := by
  cases h with
  | infinity => exact Double.noConfusion
  | finite _ _ _ => exact Double.noConfusion

theorem Signed.isNegative_eq (h : Signed negative x) : x.isNegative = negative := by
  cases h with
  | infinity => rfl
  | finite _ _ _ => rfl

/-- Without a sign the bits are at most those of infinity, and those of what is no number are
above. -/
theorem Signed.bits_le (h : Signed false x) : x.bits ≤ (Double.infinity false).bits := by
  cases h with
  | infinity => exact Nat.le_refl _
  | finite hsignificand _ hgreatest =>
      have h52 : Nat.pow 2 52 = 4503599627370496 := rfl
      have h53 : Nat.pow 2 53 = 9007199254740992 := rfl
      simp only [bits, leastExponent, greatestExponent, Bool.toNat_false, h52, h53] at *
      omega

/-! Powers of two. -/

theorem two_pow_add (m n : Nat) : Nat.pow 2 (m + n) = Nat.pow 2 m * Nat.pow 2 n :=
  Nat.pow_add 2 m n

/-- A ratio below a power of two is below those above it, whichever side of the comparison their
factors stand on. -/
theorem ratio_lt_mono {num den i j i' j' : Nat} (h : num * Nat.pow 2 j < den * Nat.pow 2 i)
    (hle : i + j' ≤ i' + j) : num * Nat.pow 2 j' < den * Nat.pow 2 i' := by
  have hpos : ∀ n, 0 < Nat.pow 2 n := Nat.two_pow_pos
  apply Nat.lt_of_mul_lt_mul_right (a := Nat.pow 2 j)
  calc num * Nat.pow 2 j' * Nat.pow 2 j
      = num * Nat.pow 2 j * Nat.pow 2 j' := Nat.mul_right_comm _ _ _
    _ < den * Nat.pow 2 i * Nat.pow 2 j' := Nat.mul_lt_mul_of_pos_right h (hpos j')
    _ = den * Nat.pow 2 (i + j') := by rw [Nat.mul_assoc, two_pow_add]
    _ ≤ den * Nat.pow 2 (i' + j) := Nat.mul_le_mul_left _ (Nat.pow_le_pow_right (by decide) hle)
    _ = den * Nat.pow 2 i' * Nat.pow 2 j := by rw [Nat.mul_assoc, two_pow_add]

theorem ratio_lt_of_log2Ratio {num den i j : Nat} (hden : 0 < den)
    (h : log2Ratio num den + 1 + j ≤ i) : num * Nat.pow 2 j < den * Nat.pow 2 i := by
  simp only [log2Ratio] at h
  split at h
  · have hnum : num < Nat.pow 2 (num.log2 + 1) := Nat.lt_log2_self
    have hden' : Nat.pow 2 den.log2 ≤ den := Nat.log2_self_le (Nat.ne_of_gt hden)
    have hbase : num * Nat.pow 2 den.log2 < den * Nat.pow 2 (num.log2 + 1) :=
      calc num * Nat.pow 2 den.log2
          < Nat.pow 2 (num.log2 + 1) * Nat.pow 2 den.log2 :=
            Nat.mul_lt_mul_of_pos_right hnum (Nat.two_pow_pos _)
        _ ≤ Nat.pow 2 (num.log2 + 1) * den := Nat.mul_le_mul_left _ hden'
        _ = den * Nat.pow 2 (num.log2 + 1) := Nat.mul_comm _ _
    exact ratio_lt_mono hbase (by omega)
  · next hguess => exact ratio_lt_mono (Nat.lt_of_not_le hguess) (by omega)

theorem roundDiv_le {num den bound : Nat} (h : num < den * bound) : roundDiv num den ≤ bound := by
  have hquotient := Nat.div_lt_of_lt_mul h
  simp only [roundDiv]
  split <;> omega

/-- A significand of 53 bits takes any ratio at an exponent no less than 52 below the greatest power
of two that the ratio reaches. -/
theorem significand_le {num den : Nat} {exponent : Int} (hden : 0 < den)
    (h : log2Ratio num den - 52 ≤ exponent) :
    (if 0 ≤ exponent then roundDiv num (den * Nat.pow 2 exponent.toNat)
      else roundDiv (num * Nat.pow 2 (-exponent).toNat) den) ≤ Nat.pow 2 53 := by
  split
  · next hexponent =>
      apply roundDiv_le
      have hlt : num * Nat.pow 2 0 < den * Nat.pow 2 (exponent.toNat + 53) :=
        ratio_lt_of_log2Ratio hden (by omega)
      rwa [two_pow_add, ← Nat.mul_assoc, Nat.mul_one] at hlt
  · apply roundDiv_le
    exact ratio_lt_of_log2Ratio hden (by omega)

theorem signed_ofRatio (negative : Bool) (num : Nat) {den : Nat} (hden : 0 < den) :
    Signed negative (ofRatio negative num den) := by
  have hleast : leastExponent ≤ max leastExponent (log2Ratio num den - 52) := Int.le_max_left _ _
  have hsignificand := significand_le hden (Int.le_max_right leastExponent (log2Ratio num den - 52))
  simp only [ofRatio]
  generalize max leastExponent (log2Ratio num den - 52) = exponent at *
  generalize (if 0 ≤ exponent then roundDiv num (den * Nat.pow 2 exponent.toNat)
    else roundDiv (num * Nat.pow 2 (-exponent).toNat) den) = significand at *
  -- Where rounding up fills all 53 bits, the next exponent has room for the result.
  by_cases hfull : significand = Nat.pow 2 53
  · simp only [if_pos hfull]
    split
    · exact .infinity
    · next hgreatest => exact .finite (by decide) (by omega) (by omega)
  · simp only [if_neg hfull]
    split
    · exact .infinity
    · next hgreatest => exact .finite (by omega) hleast (by omega)

theorem signed_ofDecimal (negative : Bool) (digits : Nat) (exponent : Int) :
    Signed negative (ofDecimal negative digits exponent) := by
  simp only [ofDecimal]
  split
  · exact .finite (by decide) (by decide) (by decide)
  split
  · exact .infinity
  split
  · exact signed_ofRatio negative _ Nat.one_pos
  · exact signed_ofRatio negative _ (Nat.pow_pos (by decide))

end ExprFront.Double
