import LiveMedia.Proofs.Decimal.Unpacked

/-!
# Reciprocals of doubles

The reciprocal of a double above zero is its exact reciprocal, rounded once to the nearest on the
grid of doubles, and from a tie to the even. Its size is bounded from both sides by the place of the
double.
-/

namespace LiveMedia.Decimal
set_option autoImplicit false

open Float.Model UnpackedFloat

section Nearest

variable {num den bound : ℕ} (tie : TieRule)

theorem le_roundQuotient (hden : 0 < den) (h : 2 * (bound * den) < 2 * num + den) :
    bound ≤ roundQuotient tie num den := by
  have hsplit : den * (num / den) + num % den = num := Nat.div_add_mod num den
  have hlt : num % den < den := Nat.mod_lt num hden
  by_cases hlow : bound ≤ num / den
  · unfold roundQuotient
    cases tie <;> dsimp only <;> split_ifs <;> omega
  · have hscaled : den * (num / den + 1) ≤ den * bound := Nat.mul_le_mul_left den (by omega)
    rw [Nat.mul_add_one] at hscaled
    have hnext : bound ≤ num / den + 1 := by
      by_contra hfar
      have hmore : den * (num / den + 2) ≤ den * bound := Nat.mul_le_mul_left den (by omega)
      rw [Nat.mul_add] at hmore
      rw [Nat.mul_comm bound] at h
      omega
    rw [Nat.mul_comm bound] at h
    have hup : den < 2 * (num % den) := by omega
    unfold roundQuotient
    rw [if_neg (by omega), if_pos hup]
    exact hnext

theorem roundQuotient_le (hden : 0 < den) (h : 2 * num < 2 * (bound * den) + den) :
    roundQuotient tie num den ≤ bound := by
  have hsplit : den * (num / den) + num % den = num := Nat.div_add_mod num den
  have hlow : num / den ≤ bound := by
    by_contra hfar
    have hmore : den * (bound + 1) ≤ den * (num / den) := Nat.mul_le_mul_left den (by omega)
    rw [Nat.mul_add_one, Nat.mul_comm den bound] at hmore
    omega
  rcases Nat.eq_or_lt_of_le hlow with heq | hlt
  · rw [heq, Nat.mul_comm] at hsplit
    unfold roundQuotient
    rw [if_pos (by omega), heq]
  · unfold roundQuotient
    cases tie <;> dsimp only <;> split_ifs <;> omega

theorem roundQuotient_eq_zero_iff {num den : ℕ} (hden : 0 < den) :
    roundQuotient .toEven num den = 0 ↔ 2 * num ≤ den := by
  constructor
  · intro hzero
    by_contra hmore
    have hone : 1 ≤ roundQuotient .toEven num den := le_roundQuotient .toEven hden (by omega)
    omega
  · intro hle
    unfold roundQuotient
    rw [Nat.div_eq_of_lt (by omega), Nat.mod_eq_of_lt (by omega)]
    dsimp only
    split_ifs <;> omega

end Nearest

/-- The mantissa and the two bits behind it tell all that rounding asks about a quotient. -/
structure Describes (em : ExtendedMantissa) (num den : ℕ) : Prop where
  mantissa : em.mantissa = num / den
  roundBit : em.roundBit = true ↔ den ≤ 2 * (num % den)
  stickyBit : em.stickyBit = true ↔ 2 * (num % den) ≠ 0 ∧ 2 * (num % den) ≠ den

namespace Describes

variable {em : ExtendedMantissa} {num den : ℕ}

theorem ofQuotient (hden : 0 < den) (num : ℕ) :
    Describes (.ofMantissaAndAccuracy (num / den) (accuracyOfFraction (num % den) den))
      num den := by
  have hlt := Nat.mod_lt num hden
  unfold accuracyOfFraction
  split
  · exact ⟨rfl, iff_of_false nofun (by omega), iff_of_false nofun (by omega)⟩
  · cases hcompare : compare (2 * (num % den)) den with
    | lt =>
      have := Nat.compare_eq_lt.mp hcompare
      exact ⟨rfl, iff_of_false nofun (by omega), iff_of_true rfl (by omega)⟩
    | eq =>
      have := Nat.compare_eq_eq.mp hcompare
      exact ⟨rfl, iff_of_true rfl (by omega), iff_of_false nofun (by omega)⟩
    | gt =>
      have := Nat.compare_eq_gt.mp hcompare
      exact ⟨rfl, iff_of_true rfl (by omega), iff_of_true rfl (by omega)⟩

theorem shiftRightOne (h : Describes em num den) (hden : 0 < den) :
    Describes em.shiftRightOne num (2 * den) := by
  have hlt := Nat.mod_lt num hden
  have hsplit : num % (2 * den) = num % den + den * (num / den % 2) := by
    rw [Nat.mul_comm, Nat.mod_mul]
  refine ⟨?_, ?_, ?_⟩
  · change em.mantissa / 2 = _
    rw [h.mantissa, Nat.div_div_eq_div_mul, Nat.mul_comm]
  · change (em.mantissa % 2 != 0) = true ↔ _
    rw [h.mantissa, bne_iff_ne, hsplit]
    rcases Nat.mod_two_eq_zero_or_one (num / den) with hbit | hbit <;> rw [hbit] <;> omega
  · change (em.roundBit || em.stickyBit) = true ↔ _
    rw [Bool.or_eq_true, h.roundBit, h.stickyBit, hsplit]
    rcases Nat.mod_two_eq_zero_or_one (num / den) with hbit | hbit <;> rw [hbit] <;> omega

theorem shiftRight (h : Describes em num den) (hden : 0 < den) (n : ℕ) :
    Describes (em >>> n) num (2 ^ n * den) := by
  induction n with
  | zero => rw [Nat.pow_zero, Nat.one_mul]; exact h
  | succ n ih =>
    rw [Nat.pow_succ', Nat.mul_assoc]
    exact ih.shiftRightOne (Nat.mul_pos (Nat.two_pow_pos n) hden)

theorem roundedMantissa (h : Describes em num den) (hden : 0 < den) :
    em.roundedMantissa = roundQuotient .toEven num den := by
  obtain ⟨m, roundBit, stickyBit⟩ := em
  obtain ⟨hmantissa, hround, hsticky⟩ := h
  have hlt := Nat.mod_lt num hden
  simp only at hmantissa hround hsticky
  unfold ExtendedMantissa.roundedMantissa roundQuotient
  rw [← hmantissa]
  cases roundBit with
  | false =>
    have hless : 2 * (num % den) < den := by simpa using hround
    rw [if_pos hless]
    cases stickyBit <;> rfl
  | true =>
    have hle : den ≤ 2 * (num % den) := hround.mp rfl
    rw [if_neg (by omega)]
    cases stickyBit with
    | false =>
      have htie : ¬ den < 2 * (num % den) := by
        intro hmore
        exact absurd (hsticky.mpr (by omega)) Bool.false_ne_true
      rw [if_neg htie]
      rfl
    | true =>
      rw [if_pos (by have := hsticky.mp rfl; omega)]
      rfl

end Describes

section Rounding

/-- The places by which a quotient has to be shifted for it to stand on the grid of doubles. -/
def excess (q : ℕ) (e : ℤ) : ℕ := (max (q.log2 - 52 + e) (-1074) - e).toNat

theorem shiftToTargetExponent_eq (m : ℕ) (e : ℤ) (a : Accuracy) :
    shiftToTargetExponent .binary64 m e a =
      (ExtendedMantissa.ofMantissaAndAccuracy m a >>> excess m e, e + excess m e) := by
  unfold shiftToTargetExponent shiftToExponent excess
  have htarget : Format.binary64.targetExponent (totalExponent m e) =
      max (m.log2 - 52 + e) (-1074) := by
    simp only [Format.targetExponent, totalExponent, Format.mantissaBits, Format.minExponent]
    omega
  rw [htarget]

theorem lt_of_excess (q : ℕ) (e : ℤ) : q < 2 ^ 53 * 2 ^ excess q e := by
  rw [← Nat.pow_add]
  apply Nat.lt_of_lt_of_le Nat.lt_log2_self
  apply Nat.pow_le_pow_right Nat.two_pos
  unfold excess
  omega

theorem le_add_excess (q : ℕ) (e : ℤ) : -1074 ≤ e + excess q e := by
  unfold excess
  omega

theorem excess_of_lt {q : ℕ} {e : ℤ} (hq : q < 2 ^ 53) (he : -1074 ≤ e) : excess q e = 0 := by
  have hlog : q.log2 ≤ 52 := log2_le_of_lt hq
  unfold excess
  omega

theorem excess_two_pow {e : ℤ} (he : -1074 ≤ e) : excess (2 ^ 53) e = 1 := by
  unfold excess
  rw [Nat.log2_two_pow]
  omega

theorem shiftToTargetExponent_of_lt {m : ℕ} {e : ℤ} (hm : m < 2 ^ 53) (he : -1074 ≤ e) :
    shiftToTargetExponent .binary64 m e .exact = (⟨m, false, false⟩, e) := by
  rw [shiftToTargetExponent_eq, excess_of_lt hm he, Nat.cast_zero, Int.add_zero]
  rfl

theorem shiftToTargetExponent_two_pow {e : ℤ} (he : -1074 ≤ e) :
    shiftToTargetExponent .binary64 (2 ^ 53) e .exact = (⟨2 ^ 52, false, false⟩, e + 1) := by
  rw [shiftToTargetExponent_eq, excess_two_pow he, Nat.cast_one]
  rfl

/-- Digits that stand at a place, as a double. Where rounding has given one digit too many, they are
moved by a place. -/
def carried (sign : Sign) (m : ℕ) (e : ℤ) : UnpackedFloat :=
  if h : m = 0 then .zero sign
  else if m < 2 ^ 53 then .finite sign m e (Nat.pos_of_ne_zero h)
  else .finite sign (2 ^ 52) (e + 1) (by decide)

/-- The quotient is rounded once, on the grid on which it has to stand. -/
theorem roundWithAccuracy_eq (sign : Sign) {den : ℕ} (hden : 0 < den) (num : ℕ) (e : ℤ) :
    let n := excess (num / den) e
    roundWithAccuracy .binary64 sign (num / den) e (accuracyOfFraction (num % den) den) =
      carried sign (roundQuotient .toEven num (2 ^ n * den)) (e + n) := by
  intro n
  generalize hrounded : roundQuotient .toEven num (2 ^ n * den) = m
  have hscale : 0 < 2 ^ n * den := Nat.mul_pos (Nat.two_pow_pos n) hden
  have hm : (ExtendedMantissa.ofMantissaAndAccuracy (num / den)
      (accuracyOfFraction (num % den) den) >>> n).roundedMantissa = m :=
    (((Describes.ofQuotient hden num).shiftRight hden n).roundedMantissa hscale).trans hrounded
  have hplace : -1074 ≤ e + n := le_add_excess _ _
  have hle : m ≤ 2 ^ 53 := by
    have hfits : num < 2 ^ 53 * (2 ^ n * den) := by
      rw [← Nat.mul_assoc]
      exact (Nat.div_lt_iff_lt_mul hden).mp (lt_of_excess (num / den) e)
    rw [← hrounded]
    exact roundQuotient_le .toEven hscale (by omega)
  unfold roundWithAccuracy carried
  rw [shiftToTargetExponent_eq]
  dsimp only
  rcases Nat.lt_or_eq_of_le hle with hlt | heq
  · rw [hm, shiftToTargetExponent_of_lt hlt hplace]
    simp only [if_pos hlt]
  · rw [hm.trans heq, shiftToTargetExponent_two_pow hplace]
    simp only [heq, Nat.lt_irrefl, if_false]
    rfl

end Rounding

section Reciprocals

/-- The place at which the reciprocal of `m * 2 ^ e` stands on the grid of doubles. -/
def reciprocalPlace (m : ℕ) (e : ℤ) : ℤ := max (-53 - e - m.log2) (-1074)

/-- One in units of the place of the reciprocal, with `m * 2 ^ e` in units of its own. -/
def dividend (m : ℕ) (e : ℤ) : ℕ := 2 ^ (52 + (-52 - e - reciprocalPlace m e).toNat)

/-- The reciprocal of `m * 2 ^ e`, rounded to a whole number of units of its place. -/
def reciprocal (m : ℕ) (e : ℤ) : ℕ := roundQuotient .toEven (dividend m e) m

variable {m : ℕ} {e : ℤ}

theorem divCore_one (he : e ≤ 971) :
    divCore .binary64 (2 ^ 52) (-52) m e =
      (dividend m e / m, reciprocalPlace m e, accuracyOfFraction (dividend m e % m) m) := by
  have htarget : min (-52 - e) (Format.binary64.targetExponent
      (totalExponent (2 ^ 52) (-52) - totalExponent m e)) = reciprocalPlace m e := by
    unfold Format.targetExponent totalExponent reciprocalPlace
    rw [Nat.log2_two_pow]
    change min _ (max (_ - 53) (-1074)) = _
    omega
  unfold divCore dividend
  dsimp only
  rw [htarget, Nat.shiftLeft_eq, ← Nat.pow_add]

theorem le_reciprocalPlace : -1074 ≤ reciprocalPlace m e := Int.le_max_right _ _

theorem dividend_le (hm : 0 < m) : dividend m e ≤ 2 ^ 53 * m := by
  have hshift : 52 + (-52 - e - reciprocalPlace m e).toNat ≤ 53 + m.log2 := by
    unfold reciprocalPlace
    omega
  calc dividend m e
      ≤ 2 ^ (53 + m.log2) := Nat.pow_le_pow_right Nat.two_pos hshift
    _ = 2 ^ 53 * 2 ^ m.log2 := Nat.pow_add 2 53 _
    _ ≤ 2 ^ 53 * m := Nat.mul_le_mul_left _ (Nat.log2_self_le (Nat.ne_of_gt hm))

theorem div_one (hm : 0 < m) (he : e ≤ 971) :
    UnpackedFloat.div .binary64 (.finite .positive (2 ^ 52) (-52) (by decide))
        (.finite .positive m e hm) =
      carried .positive (reciprocal m e) (reciprocalPlace m e) := by
  have hdiv : UnpackedFloat.div .binary64 (.finite .positive (2 ^ 52) (-52) (by decide))
      (.finite .positive m e hm) = roundWithAccuracy .binary64 .positive (dividend m e / m)
        (reciprocalPlace m e) (accuracyOfFraction (dividend m e % m) m) := by
    unfold UnpackedFloat.div
    dsimp only
    rw [divCore_one he]
    rfl
  rw [hdiv, roundWithAccuracy_eq .positive hm, reciprocal]
  have hdividend : dividend m e ≤ 2 ^ 53 * m := dividend_le hm
  rcases Nat.lt_or_eq_of_le hdividend with hlt | heq
  · have hq : dividend m e / m < 2 ^ 53 := (Nat.div_lt_iff_lt_mul hm).mpr hlt
    rw [excess_of_lt hq le_reciprocalPlace, Nat.pow_zero, Nat.one_mul, Nat.cast_zero, Int.add_zero]
  · -- the divisor is a power of two, and the quotient has one digit too many
    have hhalf : 2 ^ 53 * m = 2 ^ 52 * (2 * m) := by omega
    have hhalved : roundQuotient .toEven (2 ^ 53 * m) (2 * m) = 2 ^ 52 := by
      rw [hhalf, roundQuotient_of_dvd _ (Nat.dvd_mul_left _ _) (by omega),
        Nat.mul_div_cancel _ (by omega)]
    have hwhole : roundQuotient .toEven (2 ^ 53 * m) m = 2 ^ 53 := by
      rw [roundQuotient_of_dvd _ (Nat.dvd_mul_left _ _) hm, Nat.mul_div_cancel _ hm]
    rw [heq, Nat.mul_div_cancel _ hm, excess_two_pow le_reciprocalPlace, Nat.pow_one, hhalved,
      hwhole]
    rfl

theorem reciprocal_le (hm : 0 < m) : reciprocal m e ≤ 2 ^ 53 := by
  have hdividend : dividend m e ≤ 2 ^ 53 * m := dividend_le hm
  exact roundQuotient_le .toEven hm (by omega)

/-- Unless it is too small for that, a reciprocal has all the digits of a double. -/
theorem le_reciprocal (hm : 0 < m) (hplace : -1074 ≤ -53 - e - m.log2) :
    2 ^ 52 ≤ reciprocal m e := by
  have hshift : 52 + (-52 - e - reciprocalPlace m e).toNat = 52 + (m.log2 + 1) := by
    unfold reciprocalPlace
    omega
  have hlt : 2 ^ 52 * m < 2 ^ 52 * 2 ^ (m.log2 + 1) :=
    Nat.mul_lt_mul_of_pos_left Nat.lt_log2_self (by decide)
  unfold reciprocal dividend
  rw [hshift, Nat.pow_add]
  exact le_roundQuotient .toEven hm (by omega)

/-- The place of the reciprocal of a normal double that is not among the largest. -/
theorem reciprocalPlace_eq (h : OnGrid m e) (hleast : -1074 < e) (hgreatest : e ≤ 969) :
    reciprocalPlace m e = -105 - e := by
  have hlog := h.log2_eq hleast
  unfold reciprocalPlace
  omega

theorem reciprocal_eq (h : OnGrid m e) (hleast : -1074 < e) (hgreatest : e ≤ 969) :
    reciprocal m e = roundQuotient .toEven (2 ^ 105) m := by
  have hshift : 52 + (-52 - e - (-105 - e)).toNat = 105 := by omega
  rw [reciprocal, dividend, reciprocalPlace_eq h hleast hgreatest, hshift]

/-- The exact size of the reciprocal of `m * 2 ^ e` on the grid of doubles. -/
def reciprocalSize (m : ℕ) (e : ℤ) : ℚ := reciprocal m e * 2 ^ reciprocalPlace m e

theorem reciprocalSize_le {k : ℤ} (hm : 0 < m) (hplace : reciprocalPlace m e ≤ k) :
    reciprocalSize m e ≤ 2 ^ 53 * 2 ^ k := by
  have hdigits : (reciprocal m e : ℚ) ≤ 2 ^ 53 := by exact_mod_cast reciprocal_le hm
  have hscale : (2 : ℚ) ^ reciprocalPlace m e ≤ 2 ^ k := zpow_le_zpow_right₀ one_le_two hplace
  exact mul_le_mul hdigits hscale (by positivity) (by positivity)

theorem le_reciprocalSize {k : ℤ} (hdigits : 2 ^ 52 ≤ reciprocal m e)
    (hplace : k ≤ reciprocalPlace m e) : 2 ^ 52 * 2 ^ k ≤ reciprocalSize m e := by
  have hdigits : (2 ^ 52 : ℚ) ≤ reciprocal m e := by exact_mod_cast hdigits
  have hscale : (2 : ℚ) ^ k ≤ 2 ^ reciprocalPlace m e := zpow_le_zpow_right₀ one_le_two hplace
  exact mul_le_mul hdigits hscale (by positivity) (by positivity)

end Reciprocals

namespace Magnitude

/-- The size as an exact number. -/
def value (a : Magnitude) : ℚ := a.significand * 2 ^ a.exponent

theorem value_eq_quotient (a : Magnitude) : a.value = a.quotient.1 / a.quotient.2 := by
  obtain ⟨m, e⟩ := a
  unfold value quotient
  dsimp only
  rcases le_total 0 e with he | he
  · obtain ⟨n, rfl⟩ := Int.eq_ofNat_of_zero_le he
    have hzero : (-(n : ℤ)).toNat = 0 := by omega
    rw [hzero, Int.toNat_natCast, zpow_natCast]
    push_cast
    ring
  · obtain ⟨n, hn⟩ := Int.eq_ofNat_of_zero_le (Int.neg_nonneg_of_nonpos he)
    have hzero : e.toNat = 0 := by omega
    obtain rfl : e = -(n : ℤ) := by omega
    rw [hzero, neg_neg, Int.toNat_natCast, zpow_neg, zpow_natCast]
    push_cast
    ring

end Magnitude

section Quotients

variable {x : Float} {m : ℕ} {e : ℤ} {hm : 0 < m}

theorem one_div_unpack (x : Float) :
    1.0 / x = .ofModel (.pack (UnpackedFloat.div .binary64
      (.finite .positive (2 ^ 52) (-52) (by decide)) x.toModel.unpack)) := rfl

theorem one_div_eq (hx : x.toModel.unpack = .finite .positive m e hm) :
    1.0 / x = .ofModel (.pack (carried .positive (reciprocal m e) (reciprocalPlace m e))) := by
  rw [one_div_unpack, hx, div_one hm (onGrid_of_unpack hx).greatest]

theorem isNegative_one_div (hx : x.toModel.unpack = .finite .positive m e hm) :
    isNegative (1.0 / x) = false := by
  rw [one_div_eq hx]
  unfold carried
  split_ifs
  · decide
  · exact isNegative_pack _
  · exact isNegative_pack _

/-- The reciprocal of a positive double is its exact reciprocal, rounded on the grid of doubles, or
too large to be one. -/
theorem shape_one_div (hx : x.toModel.unpack = .finite .positive m e hm) :
    (shape (1.0 / x) = .infinite ∧ 2 ^ 52 ≤ reciprocal m e ∧ 971 ≤ reciprocalPlace m e) ∨
      ∃ a, shape (1.0 / x) = .finite a ∧ a.value = reciprocalSize m e := by
  have hnormal : 2 ^ 52 ≤ reciprocal m e ∨ reciprocalPlace m e = -1074 := by
    rcases le_or_gt (-1074) (-53 - e - (m.log2 : ℤ)) with hplace | hplace
    · exact Or.inl (le_reciprocal hm hplace)
    · exact Or.inr (Int.max_eq_right (by omega))
  rw [one_div_eq hx]
  unfold carried
  split_ifs with hzero hlt
  · refine Or.inr ⟨⟨0, -1074⟩, by decide, ?_⟩
    rw [reciprocalSize, hzero]
    simp only [Magnitude.value, Nat.cast_zero, zero_mul]
  · rw [shape_pack .positive _ hlt le_reciprocalPlace hnormal]
    split_ifs with hfits
    · exact Or.inr ⟨⟨_, _⟩, rfl, rfl⟩
    · exact Or.inl ⟨rfl, hnormal.resolve_right (by omega), by omega⟩
  · have hwhole : reciprocal m e = 2 ^ 53 := by
      have hle := reciprocal_le (e := e) hm
      omega
    have hleast : -1074 ≤ reciprocalPlace m e := le_reciprocalPlace
    rw [shape_pack .positive _ (by decide) (by omega) (Or.inl (Nat.le_refl _))]
    split_ifs with hfits
    · refine Or.inr ⟨⟨2 ^ 52, _⟩, rfl, ?_⟩
      rw [reciprocalSize, hwhole, Magnitude.value, zpow_add_one₀ two_ne_zero]
      push_cast
      ring
    · exact Or.inl ⟨rfl, by omega, by omega⟩

end Quotients

end LiveMedia.Decimal
