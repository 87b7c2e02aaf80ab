import Mathlib.Data.Int.Notation
import Mathlib.Data.Nat.Notation
import Mathlib.Logic.Basic

/-!
# Doubles above zero

A double is above zero or at most zero, or it is not a number. Which of these it is can be seen when
it is taken apart, and it does not matter in which way the zero is written.
-/

namespace LiveMedia.Decimal
set_option autoImplicit false

open Float.Model UnpackedFloat

/-- A double above zero. -/
inductive Positive : UnpackedFloat → Prop where
  | infinity : Positive (.infinity .positive)
  | finite (m : ℕ) (e : ℤ) (hm : 0 < m) : Positive (.finite .positive m e hm)

namespace Positive

variable {u v : UnpackedFloat}

/-- What is above zero stays so upwards. -/
theorem of_le (hu : Positive u) (h : u.le v = true) : Positive v := by
  cases v with
  | infinity sign =>
    cases sign with
    | positive => exact .infinity
    | negative => cases hu <;> exact absurd h Bool.false_ne_true
  | finite sign m e hm =>
    cases sign with
    | positive => exact .finite m e hm
    | negative => cases hu <;> exact absurd h Bool.false_ne_true
  | notANumber => cases hu <;> exact absurd h Bool.false_ne_true
  | zero => cases hu <;> exact absurd h Bool.false_ne_true

theorem of_lt (hu : Positive u) (h : u.lt v = true) : Positive v := by
  refine hu.of_le ?_
  unfold UnpackedFloat.le
  rw [eq_of_beq h]
  rfl

theorem of_zero_lt (h : UnpackedFloat.lt (.zero .positive) v = true) : Positive v := by
  cases v with
  | infinity sign =>
    cases sign with
    | positive => exact .infinity
    | negative => exact absurd h Bool.false_ne_true
  | finite sign m e hm =>
    cases sign with
    | positive => exact .finite m e hm
    | negative => exact absurd h Bool.false_ne_true
  | notANumber => exact absurd h Bool.false_ne_true
  | zero => exact absurd h Bool.false_ne_true

theorem zero_lt (h : Positive v) : UnpackedFloat.lt (.zero .positive) v = true := by
  cases h <;> rfl

theorem not_le_zero (h : Positive v) : v.le (.zero .positive) = false := by
  cases h <;> rfl

end Positive

variable {x y : Float}

theorem lt_iff_unpack : x < y ↔ x.toModel.unpack.lt y.toModel.unpack = true := decide_eq_true_iff

theorem le_iff_unpack : x ≤ y ↔ x.toModel.unpack.le y.toModel.unpack = true := decide_eq_true_iff

theorem unpack_zero : (0 : Float).toModel.unpack = .zero .positive := rfl

theorem unpack_decimal_zero : (0.0 : Float).toModel.unpack = .zero .positive := rfl

theorem zero_lt_iff : 0 < x ↔ Positive x.toModel.unpack := by
  rw [lt_iff_unpack, unpack_zero]
  exact ⟨.of_zero_lt, Positive.zero_lt⟩

theorem decimal_zero_lt_iff : 0.0 < x ↔ Positive x.toModel.unpack := by
  rw [lt_iff_unpack, unpack_decimal_zero]
  exact ⟨.of_zero_lt, Positive.zero_lt⟩

/-- Only a double that is not a number is neither at most zero nor above it. -/
theorem isNaN_iff_of_not_le_zero (h : ¬ x ≤ 0) : x.isNaN = true ↔ ¬ 0 < x := by
  have hnan : x.isNaN = x.toModel.unpack.isNaN := rfl
  rw [hnan, zero_lt_iff]
  rw [le_iff_unpack, unpack_zero] at h
  revert h
  cases x.toModel.unpack with
  | notANumber => exact fun _ => iff_of_true rfl nofun
  | zero sign => exact fun h => absurd rfl h
  | infinity sign =>
    cases sign with
    | positive => exact fun _ => iff_of_false Bool.false_ne_true (not_not.mpr .infinity)
    | negative => exact fun h => absurd rfl h
  | finite sign m e hm =>
    cases sign with
    | positive => exact fun _ => iff_of_false Bool.false_ne_true (not_not.mpr (.finite m e hm))
    | negative => exact fun h => absurd rfl h

end LiveMedia.Decimal
