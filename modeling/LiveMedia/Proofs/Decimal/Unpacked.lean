import Mathlib
import LiveMedia.Decimal.Binary64
import LiveMedia.Proofs.Decimal.Sign

/-!
# Doubles taken apart

A double is a sign, a place and a fraction. What they stand for is listed once. From that list come
the shape of a double, its order among the others, and that writing a number as a double and reading
it gives the number back.
-/

namespace LiveMedia.Decimal
set_option autoImplicit false

open Float.Model UnpackedFloat

section Bits

variable (b : BitVec 64)

theorem toNat_unpackMantissa :
    (@unpackMantissa .binary64 b).toNat = b.toNat % 2 ^ 52 := by
  simp [unpackMantissa]

theorem toNat_unpackExponent :
    (@unpackExponent .binary64 b).toNat = b.toNat / 2 ^ 52 % 2 ^ 11 := by
  simp [unpackExponent, Nat.shiftRight_eq_div_pow]

end Bits

/-- What a sign, a place and a fraction stand for. -/
inductive StandsFor (sign : Sign) (place fraction : ℕ) : UnpackedFloat → Prop where
  | infinity (hplace : place = 2047) (hfraction : fraction = 0) :
    StandsFor sign place fraction (.infinity sign)
  | notANumber (hplace : place = 2047) (hfraction : fraction ≠ 0) :
    StandsFor sign place fraction .notANumber
  | zero (hplace : place = 0) (hfraction : fraction = 0) :
    StandsFor sign place fraction (.zero sign)
  | subnormal (hplace : place = 0) (hfraction : 0 < fraction) :
    StandsFor sign place fraction (.finite sign fraction (-1074) hfraction)
  | normal {m : ℕ} {e : ℤ} {hm : 0 < m} (hpos : 0 < place) (hlt : place < 2047)
    (hfraction : m = 2 ^ 52 + fraction) (hplace : (place : ℤ) = e + 1075) :
    StandsFor sign place fraction (.finite sign m e hm)

theorem unpack_standsFor (b : BitVec 64) :
    StandsFor (.ofBitVec (@unpackSign .binary64 b)) (@unpackExponent .binary64 b).toNat
      (@unpackMantissa .binary64 b).toNat (UnpackedFloat.unpack .binary64 b) := by
  fun_cases UnpackedFloat.unpack .binary64 b with
  | case1 fraction place signBit sign hplace hfraction =>
    exact .infinity (congrArg BitVec.toNat hplace) (congrArg BitVec.toNat hfraction)
  | case2 fraction place hplace hfraction =>
    exact .notANumber (congrArg BitVec.toNat hplace) fun h => hfraction (BitVec.eq_of_toNat_eq h)
  | case3 fraction place signBit sign hplace hzero hfraction =>
    exact .zero (congrArg BitVec.toNat hzero) (congrArg BitVec.toNat hfraction)
  | case4 fraction place exponent signBit sign hplace hzero hfraction =>
    have hexponent : exponent + 1 = -1074 := by
      change (place.toNat : ℤ) - (1023 + 52) + 1 = -1074
      rw [hzero]
      rfl
    simp only [hexponent]
    exact .subnormal (congrArg BitVec.toNat hzero) _
  | case5 fraction place exponent signBit sign hplace hzero =>
    have hlt : place.toNat < 2 ^ 11 := place.isLt
    have hpos : place.toNat ≠ 0 := fun h => hzero (BitVec.eq_of_toNat_eq h)
    have hmax : place.toNat ≠ 2047 := fun h => hplace (BitVec.eq_of_toNat_eq h)
    have hwhole : (1#1 ++ fraction).toNat = 2 ^ 52 + fraction.toNat := by
      rw [BitVec.toNat_append, ← Nat.shiftLeft_add_eq_or_of_lt fraction.isLt]
      rfl
    have hexponent : exponent = (place.toNat : ℤ) - (1023 + 52) := rfl
    have hbound : place.toNat < 2047 := by omega
    have hplace : (place.toNat : ℤ) = exponent + 1075 := by omega
    exact .normal (Nat.pos_of_ne_zero hpos) hbound hwhole hplace

theorem log2_le_of_lt {m : ℕ} (h : m < 2 ^ 53) : m.log2 ≤ 52 := by
  by_cases hzero : m = 0
  · rw [hzero]; decide
  · exact Nat.le_of_lt_succ ((Nat.log2_lt hzero).mpr h)

/-- The digits and the place of a finite double that is not zero. -/
structure OnGrid (m : ℕ) (e : ℤ) : Prop where
  lt : m < 2 ^ 53
  least : -1074 ≤ e
  greatest : e ≤ 971
  normal : 2 ^ 52 ≤ m ∨ e = -1074

theorem OnGrid.log2_eq {m : ℕ} {e : ℤ} (h : OnGrid m e) (he : -1074 < e) : m.log2 = 52 := by
  have hhigh : 2 ^ 52 ≤ m := h.normal.resolve_right (by omega)
  exact (Nat.log2_eq_iff (by omega)).mpr ⟨hhigh, h.lt⟩

theorem onGrid_of_unpack {x : Float} {sign : Sign} {m : ℕ} {e : ℤ} {hm : 0 < m}
    (h : x.toModel.unpack = .finite sign m e hm) : OnGrid m e := by
  have hreads := unpack_standsFor x.toModel.toBits.toBitVec
  have hlt : (@unpackMantissa .binary64 x.toModel.toBits.toBitVec).toNat < 2 ^ 52 := BitVec.isLt _
  change StandsFor _ _ _ x.toModel.unpack at hreads
  rw [h] at hreads
  cases hreads with
  | subnormal hplace => exact ⟨by omega, by omega, by omega, Or.inr rfl⟩
  | normal hpos hmax hfraction hplace => exact ⟨by omega, by omega, by omega, by omega⟩

/-- The shape of a number that stands taken apart. -/
def shapeOf : UnpackedFloat → Shape
  | .notANumber => .nan
  | .infinity _ => .infinite
  | .zero _ => .finite ⟨0, -1074⟩
  | .finite _ m e _ => .finite ⟨m, e⟩

theorem shape_eq (x : Float) : shape x = shapeOf x.toModel.unpack := by
  have hreads := unpack_standsFor x.toModel.toBits.toBitVec
  rw [toNat_unpackExponent, toNat_unpackMantissa] at hreads
  change StandsFor _ _ _ x.toModel.unpack at hreads
  have hfraction : x.toBits.toNat % 2 ^ 63 % 2 ^ 52 = x.toBits.toNat % 2 ^ 52 := by omega
  have hplace : x.toBits.toNat % 2 ^ 63 / 2 ^ 52 = x.toBits.toNat / 2 ^ 52 % 2 ^ 11 := by omega
  change StandsFor _ (x.toBits.toNat / 2 ^ 52 % 2 ^ 11) (x.toBits.toNat % 2 ^ 52) _ at hreads
  unfold shape
  simp only [hfraction, hplace]
  revert hreads
  generalize x.toBits.toNat / 2 ^ 52 % 2 ^ 11 = place
  generalize x.toBits.toNat % 2 ^ 52 = fraction
  generalize x.toModel.unpack = u
  intro hreads
  cases hreads with
  | infinity hplace hfraction => subst hplace hfraction; rfl
  | notANumber hplace hfraction => subst hplace; exact if_neg hfraction
  | zero hplace hfraction => subst hplace hfraction; rfl
  | subnormal hplace hfraction => subst hplace; rfl
  | normal hpos hlt hfraction hplace =>
    obtain ⟨e, rfl⟩ := Nat.exists_eq_succ_of_ne_zero (Nat.ne_of_gt hpos)
    subst hfraction
    split
    · omega
    · omega
    · next heq =>
      cases heq
      unfold shapeOf
      congr
      omega

/-- Reading undoes writing, whatever the sign. -/
theorem standsFor_packComponents (sign : Sign) (place fraction : ℕ) (hplace : place < 2 ^ 11)
    (hfraction : fraction < 2 ^ 52) :
    ∃ s, StandsFor s place fraction (UnpackedFloat.unpack .binary64
      (packComponents .binary64 sign (BitVec.ofNat 11 place) (BitVec.ofNat 52 fraction))) := by
  have hreads := unpack_standsFor
    (packComponents .binary64 sign (BitVec.ofNat 11 place) (BitVec.ofNat 52 fraction))
  rw [unpackExponent_packComponents, unpackMantissa_packComponents, BitVec.toNat_ofNat,
    BitVec.toNat_ofNat, Nat.mod_eq_of_lt hplace, Nat.mod_eq_of_lt hfraction] at hreads
  exact ⟨_, hreads⟩

section Packing

variable (sign : Sign) {m : ℕ} {e : ℤ} (hm : 0 < m)

/-- A number on the grid is too large to be a double, normal or subnormal. -/
theorem pack_eq :
    UnpackedFloat.pack .binary64 (.finite sign m e hm) =
      if 971 < e then packedInfinity .binary64 sign
      else if m.log2 = 52 then packComponents .binary64 sign (BitVec.ofNat 11 (e + 1075).toNat)
        (BitVec.ofNat 52 m)
      else packComponents .binary64 sign 0#11 (BitVec.ofNat 52 m) := by
  have hbiased : e + (Format.binary64.exponentBias : ℤ) + (52 : ℕ) = e + 1075 := by
    change e + 1023 + 52 = _
    omega
  have hlarge : 2 ^ 11 ≤ (e + 1075).toNat + 1 ↔ 971 < e := by omega
  have hnormal : m.log2 + 1 = Format.binary64.mantissaBits ↔ m.log2 = 52 :=
    Nat.add_right_cancel_iff
  unfold UnpackedFloat.pack
  dsimp only
  rw [hbiased]
  simp only [hlarge, hnormal]

/-- What is written has the shape that it is to have. -/
theorem shape_pack (hlt : m < 2 ^ 53) (hleast : -1074 ≤ e) (hnormal : 2 ^ 52 ≤ m ∨ e = -1074) :
    shape (.ofModel (.pack (.finite sign m e hm))) =
      if e ≤ 971 then .finite ⟨m, e⟩ else .infinite := by
  have hshape : shape (.ofModel (.pack (.finite sign m e hm))) = shapeOf (UnpackedFloat.unpack
      .binary64 (UnpackedFloat.pack .binary64 (.finite sign m e hm))) := shape_eq _
  rw [hshape, pack_eq]
  by_cases hlarge : 971 < e
  · rw [if_pos hlarge, if_neg (by omega)]
    cases sign <;> rfl
  have hsmall : e ≤ 971 := by omega
  rw [if_neg hlarge, if_pos hsmall]
  by_cases hhigh : 2 ^ 52 ≤ m
  · have hlog : m.log2 = 52 := (Nat.log2_eq_iff (by omega)).mpr ⟨hhigh, hlt⟩
    have hdrop : BitVec.ofNat 52 m = BitVec.ofNat 52 (m - 2 ^ 52) := by
      apply BitVec.eq_of_toNat_eq
      rw [BitVec.toNat_ofNat, BitVec.toNat_ofNat]
      omega
    rw [if_pos hlog, hdrop]
    obtain ⟨s, hs⟩ := standsFor_packComponents sign (e + 1075).toNat (m - 2 ^ 52) (by omega)
      (by omega)
    generalize UnpackedFloat.unpack .binary64 _ = u at hs
    cases hs with
    | infinity hplace => omega
    | notANumber hplace => omega
    | zero hplace => omega
    | subnormal hplace => omega
    | @normal n d _ hpos hbound hfraction hplace =>
      have hn : n = m := by omega
      have hd : d = e := by omega
      rw [shapeOf, hn, hd]
  · have hlog : m.log2 ≠ 52 := fun h => hhigh ((Nat.log2_eq_iff (by omega)).mp h).1
    rw [if_neg hlog]
    obtain ⟨s, hs⟩ := standsFor_packComponents sign 0 m (by decide) (by omega)
    generalize UnpackedFloat.unpack .binary64 _ = u at hs
    cases hs with
    | infinity hplace => exact absurd hplace (by decide)
    | notANumber hplace => exact absurd hplace (by decide)
    | zero hplace hfraction => omega
    | subnormal hplace hfraction =>
      rw [hnormal.resolve_left hhigh]
      rfl
    | normal hpos => exact absurd hpos (Nat.lt_irrefl 0)

theorem isNegative_pack : isNegative (.ofModel (.pack (.finite .positive m e hm))) = false := by
  apply decide_eq_false
  change ¬ 2 ^ 63 ≤ (UnpackedFloat.pack .binary64 (.finite .positive m e hm)).toNat
  have hcomponents : ∀ (place : BitVec 11) (fraction : BitVec 52),
      ¬ 2 ^ 63 ≤ (packComponents .binary64 .positive place fraction).toNat := by
    intro place fraction
    have hplace := place.isLt
    have hfraction := fraction.isLt
    change ¬ 2 ^ 63 ≤ (0#1 ++ place ++ fraction).toNat
    rw [BitVec.toNat_append, ← Nat.shiftLeft_add_eq_or_of_lt hfraction, BitVec.toNat_append,
      ← Nat.shiftLeft_add_eq_or_of_lt hplace]
    rw [Nat.shiftLeft_eq, Nat.shiftLeft_eq, BitVec.toNat_zero]
    omega
  rw [pack_eq]
  split_ifs
  · exact hcomponents _ _
  · exact hcomponents _ _
  · exact hcomponents _ _

end Packing

section Comparison

variable {x y : Float} {m n : ℕ} {d e : ℤ} {hm : 0 < m} {hn : 0 < n}

theorem lt_iff_of_unpack (hx : x.toModel.unpack = .finite .positive m d hm)
    (hy : y.toModel.unpack = .finite .positive n e hn) : x < y ↔ d < e ∨ d = e ∧ m < n := by
  rw [lt_iff_unpack, hx, hy]
  change (some ((compare d e).then (compare m n)) == some Ordering.lt) = true ↔ _
  rw [beq_iff_eq, Option.some_inj, Ordering.then_eq_lt, Int.compare_eq_lt, Int.compare_eq_eq,
    Nat.compare_eq_lt]

theorem le_iff_of_unpack (hx : x.toModel.unpack = .finite .positive m d hm)
    (hy : y.toModel.unpack = .finite .positive n e hn) : x ≤ y ↔ d < e ∨ d = e ∧ m ≤ n := by
  rw [le_iff_unpack, hx, hy]
  change ((compare d e).then (compare m n)).isLE = true ↔ _
  rw [Ordering.isLE_then_iff_or, Int.compare_eq_lt, Int.compare_eq_eq, Nat.isLE_compare]

end Comparison

end LiveMedia.Decimal
