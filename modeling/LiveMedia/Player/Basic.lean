import LiveMedia.BitrateMeter
import LiveMedia.Codec.Family
import LiveMedia.JitterBuffer
import LiveMedia.Object
import LiveMedia.Payload

/-! # Players

A player takes objects from the transport, puts them in order and holds them back in a jitter
buffer, and decodes at most one of them per tick. After a fault, and at the start of every stream,
it waits for a key chunk. A stream with a newer epoch replaces the one before it. -/

namespace LiveMedia
set_option autoImplicit false

/-- Times in microseconds. -/
structure PlaySettings where
  media : Media
  minDelay : Nat
  capacity : Nat
  playoutInterval : Nat
deriving DecidableEq, Repr, Inhabited

structure PlayStats where
  objectsReceived : Nat := 0
  staleEpochDrops : Nat := 0
  streamRestarts : Nat := 0
  controlObjectsDropped : Nat := 0
  entriesPlayed : Nat := 0
  overflowDrops : Nat := 0
  lateDrops : Nat := 0
  keyframeWaitDiscards : Nat := 0
  malformedPayloads : Nat := 0
  chunksDecoded : Nat := 0
  framesRendered : Nat := 0
  renderDrops : Nat := 0
  codecResets : Nat := 0
deriving DecidableEq, Repr, Inhabited

/-- A picture with the time stamp that its sender gave it. -/
structure Rendering where
  picture : Picture
  senderTimestamp : Option Int64
deriving DecidableEq, Repr, Inhabited

structure Screen where
  capacity : Nat
  waiting : List Rendering
  isOpen : Bool
deriving DecidableEq, Repr, Inhabited

namespace Screen

def empty (capacity : Nat) : Screen := ⟨capacity, [], true⟩

/-- A picture is refused when the screen is full or closed. -/
def offer? (s : Screen) (r : Rendering) : Option Screen :=
  if s.isOpen && s.waiting.length < s.capacity then
    some { s with waiting := s.waiting ++ [r] }
  else none

def take (s : Screen) (n : Nat) : List Rendering × Screen :=
  (s.waiting.take n, { s with waiting := s.waiting.drop n })

def close (s : Screen) : Screen := { s with isOpen := false, waiting := [] }

end Screen

/-- Pictures that a decoder has given out. -/
structure PictureQueue where
  decoder : Nat
  waiting : List Picture
deriving DecidableEq, Repr, Inhabited

structure Player (W : Type) where
  settings : PlaySettings
  codec : W
  config : CodecConfig
  decoder : Option Nat
  /-- Of the decoder that was last put into service. -/
  outputs : Option PictureQueue
  /-- Time stamps of the chunks whose pictures are still to come. -/
  timestamps : List Int64
  buffer : JitterBuffer Received
  epoch : Option Nat
  screen : Screen
  bitrate : BitrateMeter
  /-- False while it waits for a key chunk. -/
  decoding : Bool
  counts : PlayStats
  events : List Event

namespace Player

variable {W : Type}

def new (settings : PlaySettings) (codec : W) (config : CodecConfig) (screen : Screen)
    (now : Nat) : Player W where
  settings := settings
  codec := codec
  config := config
  decoder := none
  outputs := none
  timestamps := []
  buffer := .empty settings.capacity settings.minDelay
  epoch := none
  screen := screen
  bitrate := .startingAt settings.media now
  decoding := false
  counts := {}
  events := []

def media (p : Player W) : Media := p.settings.media

def stats (p : Player W) : PlayStats :=
  { p.counts with overflowDrops := p.buffer.overflowDrops, lateDrops := p.buffer.lateDrops }

def emit (p : Player W) (e : Event) : Player W := { p with events := p.events ++ [e] }

def forgetEvents (p : Player W) : Player W := { p with events := [] }

def actOnScreen (f : Screen → Screen) (p : Player W) : Player W := { p with screen := f p.screen }

/-- Pictures that a decoder gives out, asked or not. Those of a decoder that was replaced are
lost. -/
def deliver (p : Player W) (i : Nat) (pictures : List Picture) : Player W :=
  match p.outputs with
  | some q =>
    if q.decoder = i then { p with outputs := some { q with waiting := q.waiting ++ pictures } }
    else p
  | none => p

/-- Changes the codecs from outside, as a fault would. Pictures come with their decoders. -/
def actOnCodec (run : W → W × List (Nat × Picture)) (p : Player W) : Player W :=
  let (codec, pictures) := run p.codec
  pictures.foldl (fun p (i, picture) => p.deliver i [picture]) { p with codec := codec }

section Receiving

/-- A newer stream: what is buffered goes, and decoding waits for a key chunk. -/
def restart (p : Player W) : Player W :=
  { p with
    buffer := p.buffer.clear
    decoding := false
    counts.streamRestarts := p.counts.streamRestarts + 1 }

/-- Turns to the stream of an object. Nothing if the object is from a stream that was replaced. -/
def follow? (p : Player W) (epoch : Nat) : Option (Player W) :=
  match p.epoch with
  | none => some { p with epoch := some epoch }
  | some current =>
    if epoch < current then none
    else if epoch = current then some p
    else some { p.restart with epoch := some epoch }

def noteBytes (p : Player W) (now bytes : Nat) : Player W :=
  match p.bitrate.add now bytes with
  | (none, meter) => { p with bitrate := meter }
  | (some sample, meter) => { p with bitrate := meter }.emit sample.event

def receive (p : Player W) (now : Nat) (o : Received) : Player W :=
  let p := { p with counts.objectsReceived := p.counts.objectsReceived + 1 }
  match p.follow? o.epoch with
  | none => { p with counts.staleEpochDrops := p.counts.staleEpochDrops + 1 }
  | some p =>
    if o.isControl && p.media.discardsControl then
      { p with counts.controlObjectsDropped := p.counts.controlObjectsDropped + 1 }
    else
      let p := p.noteBytes now o.payload.size
      { p with buffer := (p.buffer.push now ⟨o.group, o.object⟩ o).2 }

end Receiving

section Decoding

variable (dec : DecoderFamily W)

def openDecoder (p : Player W) : Option Nat :=
  p.decoder.filter fun i => dec.state p.codec i != .closed

def initializeDecoder (p : Player W) (i : Nat) : Bool × W :=
  if dec.state p.codec i = .uninitialized then
    let reply := dec.configure p.config i p.codec
    (reply.succeeded, reply.codec)
  else (true, p.codec)

/-- Puts a new decoder into service, with an empty queue of pictures. -/
def createDecoder? (p : Player W) : Option Nat × Player W :=
  match dec.create p.config p.codec with
  | (.error _, codec) => (none, { p with codec := codec })
  | (.ok i, codec) =>
    let p := { p with codec := codec }
    match p.initializeDecoder dec i with
    | (false, codec) => (none, { p with codec := codec })
    | (true, codec) =>
      (some i,
        { p with codec := codec, decoder := some i, outputs := some ⟨i, []⟩, timestamps := [] })

/-- The decoder for a chunk. A new one is made only for a key chunk. -/
def decoderFor (p : Player W) (c : Chunk) : Option Nat × Player W :=
  match p.openDecoder dec with
  | some i => (some i, p)
  | none =>
    let p := if p.decoder.isSome then
        { p with decoder := none, counts.codecResets := p.counts.codecResets + 1 }
      else p
    if !c.isKey then
      (none, { p with
        decoding := false
        counts.keyframeWaitDiscards := p.counts.keyframeWaitDiscards + 1 })
    else
      match p.createDecoder? dec with
      | (some i, p) => (some i, p)
      | (none, p) => (none, { p with decoding := false })

def decodeWith (p : Player W) (i : Nat) (c : Chunk) : Player W :=
  let reply := dec.decode c i p.codec
  let p := { p with codec := reply.codec }.deliver i reply.emitted
  if reply.succeeded then
    { p with
      timestamps := p.timestamps ++ [c.timestamp]
      counts.chunksDecoded := p.counts.chunksDecoded + 1 }
  else { p with decoding := false }

def decode (p : Player W) (c : Chunk) : Player W :=
  if !p.decoding && !c.isKey then
    { p with counts.keyframeWaitDiscards := p.counts.keyframeWaitDiscards + 1 }
  else
    match { p with decoding := true }.decoderFor dec c with
    | (some i, p) => p.decodeWith dec i c
    | (none, p) => p

/-- What is done with an object at its time. Control objects hold nothing to decode. -/
def play (p : Player W) (o : Received) : Player W :=
  if o.isControl then p
  else
    match Chunk.unpack o.payload with
    | .error _ => { p with counts.malformedPayloads := p.counts.malformedPayloads + 1 }
    | .ok c => p.decode dec c

/-- Shows a picture, with the first time stamp that is not yet used. -/
def render (p : Player W) (picture : Picture) : Player W :=
  let shown : Rendering := ⟨picture, p.timestamps.head?⟩
  let p := { p with timestamps := p.timestamps.tail }
  match p.screen.offer? shown with
  | some screen =>
    { p with screen := screen, counts.framesRendered := p.counts.framesRendered + 1 }
  | none => { p with counts.renderDrops := p.counts.renderDrops + 1 }

def renderOutputs (p : Player W) : Player W :=
  match p.outputs with
  | none => p
  | some q => q.waiting.foldl render { p with outputs := some { q with waiting := [] } }

/-- Releases at most one entry of the buffer and says whether it did. -/
def tick (p : Player W) (now : Nat) : Bool × Player W :=
  match p.buffer.pop? now with
  | none => (false, p.renderOutputs)
  | some (e, buffer) =>
    let p := { p with buffer := buffer, counts.entriesPlayed := p.counts.entriesPlayed + 1 }
    (true, (p.play dec e.payload).renderOutputs)

/-- Ticks for as long as something is released, and counts how often. A tick releases at most one
entry, so that `most` ticks are enough for as many entries. -/
def tickWhile (now : Nat) : (most : Nat) → Player W → Nat × Player W
  | 0, p => (0, p)
  | most + 1, p =>
    match p.tick dec now with
    | (false, p) => (0, p)
    | (true, p) => let (n, p) := tickWhile now most p; (n + 1, p)

def playDue (p : Player W) (now : Nat) : Nat × Player W := p.tickWhile dec now (p.buffer.size + 1)

end Decoding

end Player

end LiveMedia
