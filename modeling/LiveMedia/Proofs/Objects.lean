import LiveMedia.Object
import LiveMedia.Payload
import LiveMedia.Proofs.JitterBuffer.Order

/-!
# Objects in their order

Objects of a track are ordered by epoch, then by group, then by their place in the group.
-/

namespace LiveMedia
set_option autoImplicit false

namespace Received

/-- Where an object stands among all objects of a track. -/
def place (o : Received) : ℕ ×ₗ ℕ ×ₗ ℕ := toLex (o.epoch, toLex (o.group, o.object))

def slot (o : Received) : Slot := ⟨o.group, o.object⟩

theorem place_le_iff (a b : Received) :
    a.place ≤ b.place ↔ a.epoch < b.epoch ∨ a.epoch = b.epoch ∧ a.slot ≤ b.slot :=
  Prod.Lex.toLex_le_toLex

/-- What an object holds for a decoder: nothing if it is a control object or cannot be read. -/
def chunk? (o : Received) : Option Chunk :=
  if o.isControl then none else (Chunk.unpack o.payload).toOption

end Received

end LiveMedia
