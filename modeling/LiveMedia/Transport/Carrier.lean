import LiveMedia.Publisher.Stream
import LiveMedia.Transport.Loopback

/-! # Transports whose calls may have to wait -/

namespace LiveMedia
set_option autoImplicit false

/-- Users of the transport are told apart by numbers. -/
structure Carrier (S : Type) where
  send : (who : Nat) → Transmission → S → Progress × S
  resume : (who : Nat) → Delivery → S → Progress × S
  canResume : (who : Nat) → S → Bool

/-- A transport whose calls end at once never has a call to go on with. -/
def Link.carrier {S : Type} (link : Link S) : Carrier S where
  send _ t s := let (result, s) := link.send t s; (.done result, s)
  resume _ _ s := (.done (.ok ()), s)
  canResume _ _ := true

def Loopback.carrier : Carrier Loopback where
  send who t l := l.send who t
  resume who d l := l.resume who d
  canResume who l := l.channel.accepts who

end LiveMedia
