import LiveMedia.Builtin

/-! # Doubles as exact numbers

A finite double is plus or minus `significand * 2 ^ exponent`. Everything that is printed or read
with exact rounding goes through this form. -/

namespace LiveMedia.Decimal
set_option autoImplicit false

/-- The size of a finite double: `significand * 2 ^ exponent`. -/
structure Magnitude where
  significand : Nat
  exponent : Int
deriving DecidableEq, Repr, Inhabited

inductive Shape where
  | nan
  | infinite
  | finite (size : Magnitude)
deriving DecidableEq, Repr

/-- The sign bit, which zero and numbers that are not a number have too. -/
def isNegative (x : Float) : Bool := 2 ^ 63 ≤ x.toBits.toNat

def shape (x : Float) : Shape :=
  let bits := x.toBits.toNat % 2 ^ 63
  let fraction := bits % 2 ^ 52
  match bits / 2 ^ 52 with
  | 0 => .finite ⟨fraction, -1074⟩
  | 2047 => if fraction = 0 then .infinite else .nan
  | e + 1 => .finite ⟨2 ^ 52 + fraction, (e : Int) - 1074⟩

namespace Magnitude

/-- A size as a quotient of naturals, the divisor a power of two. -/
def quotient (a : Magnitude) : Nat × Nat :=
  (a.significand * 2 ^ a.exponent.toNat, 2 ^ (-a.exponent).toNat)

end Magnitude

inductive TieRule where
  | toEven
  | up
deriving DecidableEq, Repr

/-- The natural nearest to `num / den`; `tie` decides between two that are equally near. -/
def roundQuotient (tie : TieRule) (num den : Nat) : Nat :=
  let low := num / den
  let twice := 2 * (num % den)
  if twice < den then low
  else if den < twice then low + 1
  else match tie with
    | .up => low + 1
    | .toEven => low + low % 2

theorem roundQuotient_of_dvd (tie : TieRule) {num den : Nat} (h : den ∣ num) (hd : 0 < den) :
    roundQuotient tie num den = num / den := by
  simp [roundQuotient, Nat.mod_eq_zero_of_dvd h, hd]

end LiveMedia.Decimal
