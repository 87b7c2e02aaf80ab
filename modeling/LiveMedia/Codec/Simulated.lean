import LiveMedia.Codec.Family
import LiveMedia.Media

/-! # Simulated codecs

Encoders and decoders that work at once and without loss, over one record of what they were asked
to do. Faults are put in through the record. -/

namespace LiveMedia
set_option autoImplicit false

structure SimulatedCodec where
  unsupported : List String := []
  reconfigureFails : Bool := false
  queueSize : Nat := 0
  failNext : Bool := false
  crashed : Option Nat := none
  /-- Instances closed by a fault of their own. -/
  failed : List Nat := []
  created : Nat := 0
  /-- Whether anyone takes what the instances give out. -/
  outletOpen : Bool := true
  configured : Array CodecConfig := #[]
  encoded : Array (Int64 × Bool) := #[]
  decoded : Array (Int64 × ChunkKind) := #[]
deriving Inhabited

namespace SimulatedCodec

def supports (w : SimulatedCodec) (c : CodecConfig) : Bool := !w.unsupported.contains c.codec

/-- Instances are numbered from one in the order of their creation. -/
def create (c : CodecConfig) (w : SimulatedCodec) : Except CodecFault Nat × SimulatedCodec :=
  if w.supports c then
    (.ok (w.created + 1),
      { w with created := w.created + 1, configured := w.configured.push c })
  else (.error (.unsupported c.codec), w)

def state (w : SimulatedCodec) (i : Nat) : CodecState :=
  if w.failed.contains i || w.crashed == some i then .closed else .ready

def isClosed (w : SimulatedCodec) (i : Nat) : Bool := w.state i == .closed

def close (w : SimulatedCodec) (i : Nat) : SimulatedCodec := { w with failed := i :: w.failed }

def crash (w : SimulatedCodec) : SimulatedCodec := { w with crashed := some w.created }

def reconfigure {α : Type} (c : CodecConfig) (w : SimulatedCodec) : Reply SimulatedCodec α :=
  if w.reconfigureFails then .fault (.rejected ("cannot switch to " ++ c.codec)) w
  else .ok { w with configured := w.configured.push c }

def configureEncoder (c : CodecConfig) (i : Nat) (w : SimulatedCodec) :
    Reply SimulatedCodec Chunk :=
  if w.isClosed i then .fault .closed w else reconfigure c w

/-- Gives something out, or closes the instance if nobody takes it. -/
def emit {α : Type} (i : Nat) (a : α) (w : SimulatedCodec) : Reply SimulatedCodec α :=
  if w.outletOpen then .ok w [a] else .fault .closed (w.close i)

/-- Lets a planned fault happen, or goes on. -/
def submit {α : Type} (i : Nat) (w : SimulatedCodec) (fault : String)
    (go : Unit → Reply SimulatedCodec α) : Reply SimulatedCodec α :=
  if w.isClosed i then .fault .closed w
  else if w.failNext then .fault (.rejected fault) ({ w with failNext := false }.close i)
  else go ()

/-- Audio chunks all decode on their own. -/
def encode (media : Media) (f : Frame) (key : Bool) (i : Nat) (w : SimulatedCodec) :
    Reply SimulatedCodec Chunk :=
  submit i w "injected encode failure" fun _ =>
    emit i
      { kind := if key || media == .audio then .key else .delta
        timestamp := f.timestamp
        duration := f.duration
        data := ⟨Array.replicate f.size 0xA5⟩ }
      { w with encoded := w.encoded.push (f.timestamp, key) }

def decode (c : Chunk) (i : Nat) (w : SimulatedCodec) : Reply SimulatedCodec Picture :=
  submit i w "injected decode failure" fun _ =>
    emit i ⟨c.timestamp, c.kind, c.data.size⟩
      { w with decoded := w.decoded.push (c.timestamp, c.kind) }

def encoders (media : Media) : EncoderFamily SimulatedCodec where
  supports := supports
  create := create
  state := state
  queueSize w _ := w.queueSize
  configure := configureEncoder
  encode := encode media
  flush _ w := .ok w

def decoders : DecoderFamily SimulatedCodec where
  create := create
  state := state
  configure c _ w := reconfigure c w
  decode := decode

end SimulatedCodec

end LiveMedia
