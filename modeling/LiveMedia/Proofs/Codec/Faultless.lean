import LiveMedia.Codec.Simulated

/-!
# Simulated codecs without faults

As long as no fault is planned, an instance can be made, and it gives out one result for each thing
that it is given.
-/

namespace LiveMedia
set_option autoImplicit false

namespace SimulatedCodec

/-- Nothing is planned that would stop the next instance. -/
structure Faultless (w : SimulatedCodec) (c : CodecConfig) : Prop where
  supported : w.supports c = true
  failNext : w.failNext = false
  outletOpen : w.outletOpen = true
  ready : w.state (w.created + 1) = .ready

/-- The instance is at work, and nothing is planned that would stop it. -/
structure Working (w : SimulatedCodec) (i : Nat) : Prop where
  failNext : w.failNext = false
  outletOpen : w.outletOpen = true
  ready : w.state i = .ready

def chunkOf (media : Media) (f : Frame) (key : Bool) : Chunk where
  kind := if key || media == .audio then .key else .delta
  timestamp := f.timestamp
  duration := f.duration
  data := ⟨Array.replicate f.size 0xA5⟩

def pictureOf (c : Chunk) : Picture := ⟨c.timestamp, c.kind, c.data.size⟩

theorem create_eq {w : SimulatedCodec} {c : CodecConfig} (h : w.Faultless c) :
    ∃ v, w.create c = (.ok (w.created + 1), v) ∧ v.Working (w.created + 1) ∧
      v.queueSize = w.queueSize := by
  unfold create
  rw [if_pos h.supported]
  exact ⟨_, rfl, ⟨h.failNext, h.outletOpen, h.ready⟩, rfl⟩

theorem Working.not_isClosed {w : SimulatedCodec} {i : Nat} (h : w.Working i) :
    w.isClosed i = false := by
  unfold isClosed
  rw [h.ready]
  rfl

theorem encode_eq {w : SimulatedCodec} {i : Nat} (h : w.Working i) (media : Media) (f : Frame)
    (key : Bool) : ∃ v, encode media f key i w = .ok v [chunkOf media f key] ∧ v.Working i ∧
      v.queueSize = w.queueSize := by
  unfold encode submit emit
  simp only [h.not_isClosed, h.failNext, h.outletOpen, Bool.false_eq_true, if_false, if_true]
  exact ⟨_, rfl, ⟨rfl, rfl, h.ready⟩, rfl⟩

theorem decode_eq {w : SimulatedCodec} {i : Nat} (h : w.Working i) (c : Chunk) :
    ∃ v, decode c i w = .ok v [pictureOf c] ∧ v.Working i := by
  unfold decode submit emit
  simp only [h.not_isClosed, h.failNext, h.outletOpen, Bool.false_eq_true, if_false, if_true]
  exact ⟨_, rfl, ⟨rfl, rfl, h.ready⟩⟩

end SimulatedCodec

end LiveMedia
