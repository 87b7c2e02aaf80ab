import LiveMedia.Decimal.Binary64

/-! # The fewest digits that read back

A double stands for every real nearer to it than to its neighbours. Its shortest text is taken from
the coarsest decimal grid that has a point in that interval; of two such points the nearer one is
taken, and a tie goes as the caller says. -/

namespace LiveMedia.Decimal
set_option autoImplicit false

/-- `digits * 10 ^ exponent`. -/
structure Scientific where
  digits : Nat
  exponent : Int
deriving DecidableEq, Repr, Inhabited

/-- The reals that round to a double, as numerators over one common denominator. -/
structure RoundingInterval where
  value : Nat
  low : Nat
  high : Nat
  den : Nat
  closed : Bool

/-- All numbers are scaled by four, so that half and quarter gaps are whole. -/
def Magnitude.interval (a : Magnitude) : RoundingInterval :=
  let scale := 2 ^ a.exponent.toNat
  let den := 4 * 2 ^ (-a.exponent).toNat
  let lowGap := if a.significand = 2 ^ 52 ∧ -1074 < a.exponent then 1 else 2
  { value := 4 * a.significand * scale
    low := (4 * a.significand - lowGap) * scale
    high := (4 * a.significand + 2) * scale
    den := den
    closed := a.significand % 2 = 0 }

namespace RoundingInterval

def contains (i : RoundingInterval) (num den : Nat) : Bool :=
  let x := num * i.den
  if i.closed then i.low * den ≤ x ∧ x ≤ i.high * den else i.low * den < x ∧ x < i.high * den

/-- The point of the grid of multiples of `10 ^ k` that lies in the interval and is nearest. -/
def gridPoint? (i : RoundingInterval) (tie : TieRule) (k : Int) : Option Nat :=
  let up := 10 ^ k.toNat
  let down := 10 ^ (-k).toNat
  let num := i.value * down
  let den := i.den * up
  let below := num / den
  let nearest := roundQuotient tie num den
  let other := if nearest = below then below + 1 else below
  if i.contains (nearest * up) down then some nearest
  else if i.contains (other * up) down then some other
  else none

/-- The least `p` with `value < 10 ^ p`, starting the search at `guess`. -/
def decimalPlace (i : RoundingInterval) : (steps : Nat) → (guess : Int) → Int
  | 0, guess => guess
  | steps + 1, guess =>
    if i.value * 10 ^ (-guess).toNat < i.den * 10 ^ guess.toNat then guess
    else decimalPlace i steps (guess + 1)

def search (i : RoundingInterval) (tie : TieRule) : (steps : Nat) → (k : Int) → Scientific
  | 0, k => ⟨(i.gridPoint? tie k).getD 0, k⟩
  | steps + 1, k =>
    match i.gridPoint? tie k with
    | some d => ⟨d, k⟩
    | none => search i tie steps (k - 1)

end RoundingInterval

def Scientific.trim : (steps : Nat) → Scientific → Scientific
  | 0, s => s
  | steps + 1, s =>
    if s.digits ≠ 0 ∧ s.digits % 10 = 0 then trim steps ⟨s.digits / 10, s.exponent + 1⟩ else s

/-- The shortest decimal for a size; zero has the digit zero. -/
def Magnitude.shortest (tie : TieRule) (a : Magnitude) : Scientific :=
  if a.significand = 0 then ⟨0, 0⟩
  else
    let i := a.interval
    let bits : Int := (Nat.log2 a.significand : Int) + a.exponent
    let place := i.decimalPlace 4 (bits * 30103 / 100000)
    (i.search tie 17 (place - 1)).trim 20

end LiveMedia.Decimal
