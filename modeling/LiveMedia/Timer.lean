import LiveMedia.Decimal.Binary64

/-! # Timers

The clock counts microseconds, deadlines are given in nanoseconds, and timers go off on whole
milliseconds: a deadline is due once the milliseconds that have passed reach it rounded up. -/

namespace LiveMedia.Timer
set_option autoImplicit false

/-- The millisecond at which a deadline in nanoseconds goes off. -/
def tick (deadline : Nat) : Nat := (deadline + 999999) / 1000000

/-- The milliseconds that have passed at a moment in microseconds. -/
def passed (now : Nat) : Nat := now / 1000

def due (now deadline : Nat) : Bool := tick deadline ≤ passed now

/-- The moment at which a wait for a millisecond ends. What has passed of the current millisecond
stays on the clock. -/
def wake (now tick : Nat) : Nat := now + (tick - passed now) * 1000

theorem passed_wake {now t : Nat} (h : passed now ≤ t) : passed (wake now t) = t := by
  simp only [passed, wake] at *
  omega

theorem due_wake {now deadline : Nat} (h : passed now ≤ tick deadline) :
    due (wake now (tick deadline)) deadline = true := by
  simp [due, passed_wake h]

/-- The next tick of a steady timer. When the tick at hand comes more than five milliseconds late,
the ticks that were missed are left out. -/
def nextTick (now deadline period : Nat) : Nat :=
  let nanos := now * 1000
  if deadline + 5000000 < nanos then nanos + period - (nanos - deadline) % period
  else deadline + period

/-- A length in seconds as nanoseconds, to the nearest and from a tie to the even. Negative lengths
and lengths of `2 ^ 64` seconds and more have none. -/
def nanoseconds? (seconds : Float) : Option Nat :=
  match Decimal.shape seconds with
  | .finite a =>
    let (num, den) := a.quotient
    if num = 0 then some 0
    else if Decimal.isNegative seconds then none
    else if 2 ^ 64 * den ≤ num then none
    else some (Decimal.roundQuotient .toEven (num * 10 ^ 9) den)
  | _ => none

end LiveMedia.Timer
