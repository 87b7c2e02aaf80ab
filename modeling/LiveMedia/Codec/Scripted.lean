import LiveMedia.Codec.Family

/-! # Scripted codecs

Encoders and decoders that fail as often as they are told to, give out any number of results, and
may hold them back until they are released. -/

namespace LiveMedia
set_option autoImplicit false

structure ScriptedCodec where
  unsupported : List String := []
  startsUninitialized : Bool := false
  createFails : Nat := 0
  configureFails : Nat := 0
  codecFails : Nat := 0
  flushFails : Bool := false
  holds : Bool := false
  outputs : Nat := 1
  shift : Int64 := 0
  queueSize : Nat := 0
  created : Nat := 0
  flushes : Nat := 0
  /-- Instances that are ready unless they are closed. -/
  ready : List Nat := []
  closedUpTo : Nat := 0
  heldChunks : List Chunk := []
  /-- Pictures held back, with the instances that made them. -/
  heldPictures : List (Nat × Picture) := []
  configured : Array CodecConfig := #[]
  encoded : Array (Int64 × Bool) := #[]
  decoded : Array (Int64 × ChunkKind) := #[]
deriving Inhabited

namespace ScriptedCodec

def supports (w : ScriptedCodec) (c : CodecConfig) : Bool := !w.unsupported.contains c.codec

def create (c : CodecConfig) (w : ScriptedCodec) : Except CodecFault Nat × ScriptedCodec :=
  if !w.supports c then (.error (.unsupported c.codec), w)
  else if 0 < w.createFails then
    (.error (.rejected "scripted create failure"), { w with createFails := w.createFails - 1 })
  else
    let i := w.created + 1
    (.ok i,
      { w with created := i, ready := if w.startsUninitialized then w.ready else i :: w.ready })

def state (w : ScriptedCodec) (i : Nat) : CodecState :=
  if i ≤ w.closedUpTo then .closed
  else if w.ready.contains i then .ready
  else .uninitialized

def crash (w : ScriptedCodec) : ScriptedCodec := { w with closedUpTo := w.created }

def configure {α : Type} (c : CodecConfig) (i : Nat) (w : ScriptedCodec) : Reply ScriptedCodec α :=
  if 0 < w.configureFails then
    .fault (.rejected "scripted configure failure")
      { w with configureFails := w.configureFails - 1 }
  else .ok { w with configured := w.configured.push c, ready := i :: w.ready }

def encode (f : Frame) (key : Bool) (_ : Nat) (w : ScriptedCodec) : Reply ScriptedCodec Chunk :=
  if 0 < w.codecFails then
    .fault (.rejected "scripted encode failure") { w with codecFails := w.codecFails - 1 }
  else
    let w := { w with encoded := w.encoded.push (f.timestamp, key) }
    let made := List.replicate w.outputs
      { kind := if key then .key else .delta
        timestamp := f.timestamp + w.shift
        duration := f.duration
        data := ⟨Array.replicate f.size 0x5A⟩ : Chunk }
    if w.holds then .ok { w with heldChunks := w.heldChunks ++ made } else .ok w made

def decode (c : Chunk) (i : Nat) (w : ScriptedCodec) : Reply ScriptedCodec Picture :=
  if 0 < w.codecFails then
    .fault (.rejected "scripted decode failure") { w with codecFails := w.codecFails - 1 }
  else
    let w := { w with decoded := w.decoded.push (c.timestamp, c.kind) }
    let made := List.replicate w.outputs (⟨c.timestamp + w.shift, c.kind, c.data.size⟩ : Picture)
    if w.holds then .ok { w with heldPictures := w.heldPictures ++ made.map (i, ·) }
    else .ok w made

def releaseChunks (w : ScriptedCodec) : ScriptedCodec × List Chunk :=
  ({ w with heldChunks := [] }, w.heldChunks)

def releasePictures (w : ScriptedCodec) : ScriptedCodec × List (Nat × Picture) :=
  ({ w with heldPictures := [] }, w.heldPictures)

def flush (_ : Nat) (w : ScriptedCodec) : Reply ScriptedCodec Chunk :=
  let (w, held) := { w with flushes := w.flushes + 1 }.releaseChunks
  if w.flushFails then .fault (.rejected "scripted flush failure") w held else .ok w held

def encoders : EncoderFamily ScriptedCodec where
  supports := supports
  create := create
  state := state
  queueSize w _ := w.queueSize
  configure := configure
  encode := encode
  flush := flush

def decoders : DecoderFamily ScriptedCodec where
  create := create
  state := state
  configure := configure
  decode := decode

end ScriptedCodec

end LiveMedia
