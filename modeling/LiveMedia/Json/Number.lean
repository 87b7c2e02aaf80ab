import LiveMedia.Decimal.Layout

/-! # Numbers in JSON text

A number keeps its digits as written. A whole number in the range of 64-bit integers is read as an
integer. Any other is read as a double in steps of one operation each: the digits that fit into 64
bits are taken as a double and then scaled by powers of ten up to `10 ^ 308`, which is not always
the nearest double. -/

namespace LiveMedia.Json
set_option autoImplicit false

structure Exponent where
  negative : Bool
  digits : List Nat
deriving DecidableEq, Repr

/-- The parts of a number as written; every digit is below ten. -/
structure Number where
  negative : Bool
  whole : List Nat
  fraction : List Nat
  exponent : Option Exponent
deriving DecidableEq, Repr

namespace Number

def digit? (b : UInt8) : Option Nat :=
  if 48 ≤ b ∧ b ≤ 57 then some (b.toNat - 48) else none

def takeDigits : List UInt8 → List Nat × List UInt8
  | [] => ([], [])
  | b :: rest =>
    match digit? b with
    | some d =>
      let (ds, tail) := takeDigits rest
      (d :: ds, tail)
    | none => ([], b :: rest)

/-- Nothing, or an exponent mark, an optional sign and at least one digit. -/
def exponent? : List UInt8 → Option (Option Exponent)
  | [] => some none
  | b :: rest =>
    if b = 101 ∨ b = 69 then
      let (negative, body) := match rest with
        | 45 :: r => (true, r)
        | 43 :: r => (false, r)
        | r => (false, r)
      match takeDigits body with
      | (d :: ds, []) => some (some ⟨negative, d :: ds⟩)
      | _ => none
    else none

/-- A point must be followed by a digit. -/
def fraction? : List UInt8 → Option (List Nat × List UInt8)
  | 46 :: rest =>
    match takeDigits rest with
    | ([], _) => none
    | (ds, tail) => some (ds, tail)
  | rest => some ([], rest)

/-- Reads the text of a number; a zero in front of other digits is refused. -/
def ofText? (text : List UInt8) : Option Number := do
  let (negative, body) := match text with
    | 45 :: r => (true, r)
    | r => (false, r)
  let (whole, tail) := takeDigits body
  guard (whole ≠ [] ∧ (whole.head? = some 0 → whole.length = 1))
  let (fraction, tail) ← fraction? tail
  let exponent ← exponent? tail
  return ⟨negative, whole, fraction, exponent⟩

def value (digits : List Nat) : Nat := digits.foldl (fun n d => n * 10 + d) 0

/-- The integer a number is read as: written without point and exponent, within 64 bits, and not
minus zero. -/
def int? (n : Number) : Option Int :=
  if n.fraction = [] ∧ n.exponent = none then
    let v := value n.whole
    if n.negative then
      if 0 < v ∧ v ≤ 2 ^ 63 then some (-v) else none
    else if v < 2 ^ 64 then some v else none
  else none

/-- Digits taken so far, the power of ten they stand at, and whether more digits are still taken. -/
structure Significand where
  value : Nat
  shift : Int
  taking : Bool

namespace Significand

def fits (s : Significand) (d : Nat) : Bool := s.value * 10 + d < 2 ^ 64

/-- Once a digit does not fit, it and all after it only move the point. -/
def takeWhole (s : Significand) (d : Nat) : Significand :=
  if s.taking ∧ s.fits d then { s with value := s.value * 10 + d }
  else { s with shift := s.shift + 1, taking := false }

/-- Once a digit does not fit, it and all after it are ignored. -/
def takeFraction (s : Significand) (d : Nat) : Significand :=
  if s.taking ∧ s.fits d then { s with value := s.value * 10 + d, shift := s.shift - 1 }
  else { s with taking := false }

end Significand

/-- The digits of whole part and fraction. Taking starts anew at the point. -/
def significand (n : Number) : Significand :=
  let s := n.whole.foldl Significand.takeWhole ⟨0, 0, true⟩
  n.fraction.foldl Significand.takeFraction { s with taking := true }

/-- Scales by at most `10 ^ 308` at a time; a result beyond every double is refused. -/
def scale : (steps : Nat) → Float → (exponent : Int) → Option Float
  | steps, x, e =>
    if e.natAbs ≤ 308 then
      let power := Float.ofScientific 1 false e.natAbs
      if 0 ≤ e then
        let y := x * power
        if y.isInf then none else some y
      else some (x / power)
    else if x == 0 then some x
    else if 0 ≤ e then none
    else match steps with
      | 0 => some (x / Float.ofScientific 1 false 308)
      | steps + 1 => scale steps (x / Float.ofScientific 1 false 308) (e + 308)

def clampExponent (e : Int) : Int := max (-2 ^ 31) (min (2 ^ 31 - 1) e)

/-- The double a number is read as; nothing if it is beyond every double. -/
def float? (n : Number) : Option Float := do
  let s := n.significand
  let size ← match n.exponent with
    | none => scale 8 s.value.toUInt64.toFloat (clampExponent s.shift)
    | some e =>
      let v : Int := value e.digits
      if 2 ^ 31 ≤ v then
        if s.value ≠ 0 ∧ !e.negative then none else some 0
      else
        scale 8 s.value.toUInt64.toFloat (clampExponent (s.shift + if e.negative then -v else v))
  return if n.negative then -size else size

end Number

/-- The text of a double: positional from `1e-5` up to `1e16` and with an exponent elsewhere. A
value that is not finite has none. -/
def floatText? (x : Float) : Option (List Char) :=
  match Decimal.shape x with
  | .finite a =>
    let s := a.shortest .toEven
    let place := s.pointPlace
    let body :=
      if s.digits = 0 ∨ (-5 < place ∧ place ≤ 16) then Decimal.withFraction s
      else s.withExponent
    some (Decimal.signed (Decimal.isNegative x) body)
  | _ => none

end LiveMedia.Json
