import LiveMedia.Decimal.Shortest

/-! # Written forms of decimals

Positional text, text with an exponent, and text with a fixed number of places. -/

namespace LiveMedia.Decimal
set_option autoImplicit false

namespace Scientific

/-- How many digits stand before the point; not positive when the number is below one. -/
def pointPlace (s : Scientific) : Int := (Nat.toDigits 10 s.digits).length + s.exponent

def zeros (n : Nat) : List Char := List.replicate n '0'

def positional (s : Scientific) : List Char :=
  let ds := Nat.toDigits 10 s.digits
  if 0 ≤ s.exponent then ds ++ zeros s.exponent.toNat
  else
    let after := (-s.exponent).toNat
    if after < ds.length then ds.take (ds.length - after) ++ '.' :: ds.drop (ds.length - after)
    else '0' :: '.' :: zeros (after - ds.length) ++ ds

def withExponent (s : Scientific) : List Char :=
  let e := s.pointPlace - 1
  let mark := 'e' :: (if e < 0 then '-' else '+') :: Nat.toDigits 10 e.natAbs
  match Nat.toDigits 10 s.digits with
  | [] => mark
  | [d] => d :: mark
  | d :: ds => d :: '.' :: ds ++ mark

end Scientific

def signed (negative : Bool) (text : List Char) : List Char :=
  if negative then '-' :: text else text

/-- Keeps a fraction: a whole number is followed by `.0`. -/
def withFraction (s : Scientific) : List Char :=
  if 0 ≤ s.exponent then s.positional ++ ['.', '0'] else s.positional

/-- `places` digits after the point; a tie goes to the even neighbour. -/
def fixedPlaces (places : Nat) (x : Float) : List Char :=
  match shape x with
  | .nan => ['N', 'a', 'N']
  | .infinite => signed (isNegative x) ['i', 'n', 'f']
  | .finite a =>
    let (num, den) := a.quotient
    let n := roundQuotient .toEven (num * 10 ^ places) den
    let whole := Nat.toDigits 10 (n / 10 ^ places)
    let part := Nat.toDigits 10 (n % 10 ^ places)
    let text :=
      if places = 0 then whole
      else whole ++ '.' :: Scientific.zeros (places - part.length) ++ part
    signed (isNegative x) text

end LiveMedia.Decimal
