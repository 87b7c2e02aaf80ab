import LiveMedia.Event

/-! # Bit rate over windows of one second

Bytes are counted until an addition comes at least one second after the window began. That addition
still belongs to the window, and the next window begins with it.

Moments are whole microseconds. Where those of a finer clock are cut down to them, an addition less
than a microsecond before the end of a window may be counted as one that ends it. -/

namespace LiveMedia
set_option autoImplicit false

structure BitrateSample where
  media : Media
  bytes : Nat

namespace BitrateSample

def mbps (s : BitrateSample) : Float := (s.bytes * 8).toUInt64.toFloat / 1e6

def kbps (s : BitrateSample) : Float := s.mbps * 1000.0

def event (s : BitrateSample) : Event := .bitrate s.media s.kbps

end BitrateSample

structure BitrateMeter where
  media : Media
  windowStart : Nat
  windowBytes : Nat
deriving DecidableEq, Repr

namespace BitrateMeter

/-- One second in microseconds. -/
def window : Nat := 1000000

def startingAt (media : Media) (start : Nat) : BitrateMeter := ⟨media, start, 0⟩

def add (m : BitrateMeter) (now bytes : Nat) : Option BitrateSample × BitrateMeter :=
  let total := m.windowBytes + bytes
  if now - m.windowStart < window then (none, { m with windowBytes := total })
  else (some ⟨m.media, total⟩, { m with windowStart := now, windowBytes := 0 })

def reset (m : BitrateMeter) (now : Nat) : BitrateMeter :=
  { m with windowStart := now, windowBytes := 0 }

end BitrateMeter

end LiveMedia
