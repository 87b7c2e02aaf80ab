import LiveMedia.Decimal.Shortest

/-! # Reading decimals with correct rounding -/

namespace LiveMedia.Decimal
set_option autoImplicit false

def digit? (c : Char) : Option Nat :=
  if '0' ≤ c ∧ c ≤ '9' then some (c.toNat - '0'.toNat) else none

/-- The double nearest to `digits * 10 ^ exponent`. Sizes far outside the range of doubles are
settled by their place alone. -/
def nearest (digits : Nat) (exponent : Int) : Float :=
  if digits = 0 then 0
  else
    let place := exponent + (Nat.toDigits 10 digits).length
    if 400 < place then 1 / 0
    else if place < -400 then 0
    else if 0 ≤ exponent then Float.ofScientific digits false exponent.toNat
    else Float.ofScientific digits true (-exponent).toNat

/-- The value of a run of digits, together with what follows it and the length of the run. -/
def takeDigits : List Char → (value count : Nat) → Nat × Nat × List Char
  | [], value, count => (value, count, [])
  | c :: rest, value, count =>
    match digit? c with
    | some d => takeDigits rest (value * 10 + d) (count + 1)
    | none => (value, count, c :: rest)

/-- An exponent mark with an optional sign and at least one digit, up to the end. -/
def exponent? : List Char → Option Int
  | [] => some 0
  | c :: rest =>
    if c = 'e' ∨ c = 'E' then
      let (negative, rest) := match rest with
        | '-' :: r => (true, r)
        | '+' :: r => (false, r)
        | r => (false, r)
      match takeDigits rest 0 0 with
      | (value, _ + 1, []) => some (if negative then -value else value)
      | _ => none
    else none

/-- Digits with an optional point and exponent; a digit must stand on one side of the point. -/
def unsigned? (text : List Char) : Option Float :=
  match takeDigits text 0 0 with
  | (whole, n, '.' :: rest) =>
    match takeDigits rest whole 0 with
    | (all, m, tail) =>
      if n + m = 0 then none else (exponent? tail).map fun e => nearest all (e - m)
  | (whole, n, tail) => if n = 0 then none else (exponent? tail).map (nearest whole)

def lower (text : List Char) : List Char := text.map Char.toLower

/-- A signed decimal, `inf`, `infinity` or `nan`, the words in any case. -/
def float? (text : List Char) : Option Float :=
  let (negative, body) := match text with
    | '-' :: r => (true, r)
    | '+' :: r => (false, r)
    | r => (false, r)
  let value :=
    if lower body = "inf".toList ∨ lower body = "infinity".toList then some (1 / 0)
    else if lower body = "nan".toList then some (0 / 0)
    else unsigned? body
  value.map fun x => if negative then -x else x

end LiveMedia.Decimal
