import LiveMedia.Builtin

/-! # Capture clock

A time line in microseconds that follows a steady clock at an offset. Readings never go back: when
the offset is lowered the clock stands still until the time line has caught up.

Moments of the steady clock are whole microseconds. Of a finer clock only the whole microseconds
that have passed since the origin ever count, so that nothing is lost by counting its moments from
there, each cut down to a microsecond. -/

namespace LiveMedia
set_option autoImplicit false

structure CaptureClock where
  /-- The steady time at which the clock was made. -/
  origin : Nat
  offset : Int
  /-- The greatest reading so far. -/
  published : Nat
deriving DecidableEq, Repr

namespace CaptureClock

def startingAt (origin : Nat) (offset : Int := 0) : CaptureClock := ⟨origin, offset, 0⟩

/-- A 64-bit word taken as a signed number. -/
def signedWord (n : Nat) : Int := (n : Int).bmod (2 ^ 64)

def elapsed (c : CaptureClock) (steady : Nat) : Nat := steady - c.origin

/-- The time line itself; it does not go below zero. -/
def timeline (c : CaptureClock) (steady : Nat) : Nat := (c.elapsed steady + c.offset).toNat

def read (c : CaptureClock) (steady : Nat) : Nat × CaptureClock :=
  let reading := max c.published (c.timeline steady)
  (reading, { c with published := reading })

/-- The time since `capture`; negative if the capture lies ahead of the clock. -/
def latency (c : CaptureClock) (steady capture : Nat) : Int × CaptureClock :=
  let (reading, c) := c.read steady
  (signedWord reading - signedWord capture, c)

def resync (c : CaptureClock) (steady reference : Nat) : CaptureClock :=
  { c with offset := signedWord reference - c.elapsed steady }

@[simp] theorem published_read (c : CaptureClock) (steady : Nat) :
    (c.read steady).2.published = (c.read steady).1 := rfl

@[simp] theorem published_resync (c : CaptureClock) (steady reference : Nat) :
    (c.resync steady reference).published = c.published := by
  unfold resync
  -- Nothing of the new offset may be evaluated here.
  generalize signedWord reference - c.elapsed steady = offset
  rfl

theorem published_le_read (c : CaptureClock) (steady : Nat) :
    c.published ≤ (c.read steady).1 := Nat.le_max_left _ _

end CaptureClock

end LiveMedia
