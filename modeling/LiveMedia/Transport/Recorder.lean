import LiveMedia.Fault
import LiveMedia.Publisher.Stream

/-! # A transport that writes down what it is asked to send

Calls end at once. Each kind of call can be made to fail. -/

namespace LiveMedia
set_option autoImplicit false

structure Recorder where
  failHeaders : Bool := false
  failObjects : Bool := false
  failMarkers : Bool := false
  failFlush : Bool := false
  closed : Bool := false
  /-- All calls in their order, each with whether it failed. -/
  calls : Array (Transmission × Bool) := #[]

namespace Recorder

def fails (r : Recorder) : Transmission → Bool
  | .header _ => r.failHeaders
  | .object o => if o.status.isSome then r.failMarkers else r.failObjects
  | .flush => r.failFlush

def send (t : Transmission) (r : Recorder) : Except LinkFault Unit × Recorder :=
  if r.closed then (.error .closed, { r with calls := r.calls.push (t, true) })
  else if r.fails t then
    (.error (.sendFailed "refused"), { r with calls := r.calls.push (t, true) })
  else (.ok (), { r with calls := r.calls.push (t, false) })

def link : Link Recorder := ⟨send⟩

end Recorder

end LiveMedia
