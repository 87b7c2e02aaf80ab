import LiveMedia.Media
import LiveMedia.Object

/-! # Routing by track

A router takes the objects that come in, one after the other, and hands each to the medium of its
track. Told to stop, it first hands over everything that has come in. -/

namespace LiveMedia
set_option autoImplicit false

structure Router where
  tracks : PerMedia Nat
  told : Bool := false
  /-- Set when the router has seen that it is to stop, or that nothing more will come in. -/
  draining : Bool := false
  held : Option (Media × Received) := none
  routed : Nat := 0
  /-- Objects of tracks that nobody plays. -/
  unknown : Nat := 0
  ended : Bool := false

namespace Router

def mediaOf? (r : Router) (track : Nat) : Option Media :=
  if track = r.tracks.video then some .video
  else if track = r.tracks.audio then some .audio
  else none

def take (r : Router) (o : Received) : Router :=
  match r.mediaOf? o.track with
  | some m => { r with held := some (m, o) }
  | none => { r with unknown := r.unknown + 1 }

/-- The object has been handed over, or there was nobody left to take it. -/
def settle (r : Router) (taken : Bool) : Router :=
  { r with held := none, routed := if taken then r.routed + 1 else r.routed }

end Router

end LiveMedia
