import LiveMedia.Codec.Family
import LiveMedia.BitrateMeter
import LiveMedia.CaptureClock
import LiveMedia.GroupCursor
import LiveMedia.Object
import LiveMedia.Payload
import LiveMedia.PendingCaptures

/-! # Publishers

A publisher hands captured frames to an encoder and makes transport objects of the chunks that come
back. It numbers its streams by epoch, starts the time of each at zero, keeps encoders alive, and
drops frames while the encoder is behind. -/

namespace LiveMedia
set_option autoImplicit false

structure PublishSettings where
  media : Media
  track : Nat
  /-- One frame in so many is asked to be a key frame. -/
  keyframeInterval : Nat
  /-- Frames are dropped while more than this are waiting in the encoder. -/
  maxQueue : Nat
deriving DecidableEq, Repr, Inhabited

structure PublishStats where
  framesSubmitted : Nat := 0
  droppedBackpressure : Nat := 0
  droppedNoCodec : Nat := 0
  chunksSent : Nat := 0
  groupsStarted : Nat := 0
  endOfGroupMarkers : Nat := 0
  codecResets : Nat := 0
  sendFailures : Nat := 0
  /-- From capture to the end of encoding, in microseconds. -/
  lastLatency : Option Int := none
deriving DecidableEq, Repr, Inhabited

inductive Transmission where
  | header (h : GroupHeader)
  | object (o : Outgoing)
  /-- The stream is over; nothing may be kept back. -/
  | flush
deriving DecidableEq

structure Publisher (W : Type) where
  settings : PublishSettings
  codec : W
  config : Option CodecConfig
  encoder : Option Nat
  /-- Set until an encode call has succeeded on a new encoder or in a new stream. -/
  forceKeyframe : Bool
  /-- Chunks that came out of encoders and are not yet handled. -/
  outputs : List Chunk
  /-- False once the outputs were lost together with an abandoned stream. -/
  receiving : Bool
  cursor : GroupCursor
  epoch : Nat
  pending : PendingCaptures
  /-- The time stamp that counts as zero in this stream. -/
  origin : Option Int64
  frameIndex : Nat
  bitrate : BitrateMeter
  clock : CaptureClock
  streaming : Bool
  stats : PublishStats
  events : List Event
  /-- Set when a key frame was looked for at an interval of zero frames. -/
  broken : Bool

namespace Publisher

variable {W : Type}

def new (settings : PublishSettings) (codec : W) (clock : CaptureClock) (now : Nat) :
    Publisher W where
  settings := settings
  codec := codec
  config := none
  encoder := none
  forceKeyframe := true
  outputs := []
  receiving := true
  cursor := .start
  epoch := 0
  pending := .empty
  origin := none
  frameIndex := 0
  bitrate := .startingAt settings.media now
  clock := clock
  streaming := false
  stats := {}
  events := []
  broken := false

def media (p : Publisher W) : Media := p.settings.media

def emit (p : Publisher W) (e : Event) : Publisher W := { p with events := p.events ++ [e] }

def forgetEvents (p : Publisher W) : Publisher W := { p with events := [] }

/-- Chunks that an encoder gives out, asked or not. -/
def deliver (p : Publisher W) (chunks : List Chunk) : Publisher W :=
  { p with outputs := if p.receiving then p.outputs ++ chunks else [] }

/-- Takes over the state of the codecs after an operation, and what it gave out. -/
def absorb (p : Publisher W) (r : Reply W Chunk) : Publisher W :=
  { p with codec := r.codec }.deliver r.emitted

/-- Changes the codecs from outside, as a fault would. -/
def actOnCodec (run : W → W × List Chunk) (p : Publisher W) : Publisher W :=
  let (codec, chunks) := run p.codec
  { p with codec := codec }.deliver chunks

section Configuration

variable (enc : EncoderFamily W)

def openEncoder (p : Publisher W) : Option Nat :=
  p.encoder.filter fun i => enc.state p.codec i != .closed

/-- Puts a configuration into effect. One that is not supported changes nothing. Otherwise it is
kept, and an encoder that refuses it is given up for a new one. -/
def configure (p : Publisher W) (c : CodecConfig) : Except Failure Unit × Publisher W :=
  if !enc.supports p.codec c then
    (.error (.configurationUnsupported p.media c.codec),
      p.emit (.configError p.media .unsupported c))
  else
    match p.openEncoder enc with
    | none => (.ok (), { p with config := some c })
    | some i =>
      let reply := enc.configure c i p.codec
      let p := { p.absorb reply with config := some c }
      match reply.verdict with
      | .ok _ => (.ok (), p)
      | .error cause =>
        (.error (.reconfigureFailed p.media cause),
          { p with encoder := none, forceKeyframe := true }.emit
            (.configError p.media .reconfigureFailed c))

end Configuration

section Submission

variable (enc : EncoderFamily W)

/-- Gives up a closed encoder and makes one where there is none. -/
def renewEncoder (p : Publisher W) : Publisher W :=
  match p.openEncoder enc with
  | some _ => p
  | none =>
    let p := if p.encoder.isSome then
        { p with encoder := none, stats.codecResets := p.stats.codecResets + 1 }
      else p
    match p.config with
    | none => p
    | some c =>
      match enc.create c p.codec with
      | (.ok i, codec) => { p with codec := codec, encoder := some i, forceKeyframe := true }
      | (.error _, codec) => { p with codec := codec }

/-- Configures an encoder that never was. Gives the encoder that is ready for a frame, if one is. -/
def initializeEncoder (p : Publisher W) : Option Nat × Publisher W :=
  match p.encoder with
  | none => (none, p)
  | some i =>
    if enc.state p.codec i = .uninitialized then
      match p.config with
      | none => (none, p)
      | some c =>
        let reply := enc.configure c i p.codec
        let p := p.absorb reply
        if reply.succeeded then (some i, p) else (none, { p with encoder := none })
    else (some i, p)

def prepareEncoder (p : Publisher W) : Option Nat × Publisher W :=
  (p.renewEncoder enc).initializeEncoder enc

def wantsKeyframe (p : Publisher W) : Bool :=
  p.forceKeyframe || p.frameIndex % p.settings.keyframeInterval == 0

def encodeWith (p : Publisher W) (i now : Nat) (f : Frame) : Publisher W :=
  if !p.forceKeyframe && p.settings.keyframeInterval == 0 then { p with broken := true }
  else
    let key := p.wantsKeyframe
    let (reading, clock) := p.clock.read now
    let p := { p with
      frameIndex := p.frameIndex + 1
      clock := clock
      pending := p.pending.record f.timestamp reading }
    let reply := enc.encode f key i p.codec
    let p := p.absorb reply
    match reply.verdict with
    | .ok _ =>
      { p with forceKeyframe := false, stats.framesSubmitted := p.stats.framesSubmitted + 1 }
    | .error _ =>
      if enc.state p.codec i = .closed then { p with forceKeyframe := true } else p

/-- Takes a frame from the source: it goes to the encoder unless there is none or the encoder is
too far behind. -/
def submit (p : Publisher W) (now : Nat) (f : Frame) : Publisher W :=
  match p.prepareEncoder enc with
  | (none, p) => { p with stats.droppedNoCodec := p.stats.droppedNoCodec + 1 }
  | (some i, p) =>
    if p.settings.maxQueue < enc.queueSize p.codec i then
      { p with stats.droppedBackpressure := p.stats.droppedBackpressure + 1 }
    else p.encodeWith enc i now f

/-- Asks the encoder for all that it still holds. A flush that fails is passed over. -/
def flushEncoder (p : Publisher W) : Publisher W :=
  match p.encoder with
  | none => p
  | some i => p.absorb (enc.flush i p.codec)

end Submission

/-- A new stream: the next epoch, with numbers and times starting anew. -/
def beginStream (p : Publisher W) (now : Nat) : Publisher W :=
  { p with
    epoch := p.epoch + 1
    origin := none
    pending := p.pending.clear
    cursor := .start
    frameIndex := 0
    forceKeyframe := true
    bitrate := p.bitrate.reset now
    streaming := true }

def endStream (p : Publisher W) : Publisher W := { p with streaming := false }

section Output

/-- The object that marks the end of a group. Group 0 is not marked. -/
def endMarker? (p : Publisher W) (g : ClosedGroup) : Option Outgoing :=
  if g.group = 0 then none
  else some {
    track := p.settings.track
    epoch := p.epoch
    group := g.group
    subgroup := g.subgroup
    object := g.lastObject + 1
    payload := ByteArray.empty
    status := some .endOfGroup }

def noteLatency (p : Publisher W) (now : Nat) (timestamp : Int64) : Publisher W :=
  match p.pending.take timestamp with
  | (none, pending) => { p with pending := pending }
  | (some captured, pending) =>
    let (latency, clock) := p.clock.latency now captured
    { p with pending := pending, clock := clock, stats.lastLatency := some latency }

def noteBytes (p : Publisher W) (now bytes : Nat) : Publisher W :=
  match p.bitrate.add now bytes with
  | (none, meter) => { p with bitrate := meter }
  | (some sample, meter) => { p with bitrate := meter }.emit sample.event

/-- Numbers and packs a chunk. The calls that follow from it are given in their order: the header
of the group if it is still missing, the object, and the end of the group before it. -/
def handle (p : Publisher W) (now : Nat) (c : Chunk) : List Transmission × Publisher W :=
  let origin := p.origin.getD c.timestamp
  let payload := (c.rebased origin).pack
  let p := { p with origin := some origin }.noteLatency now c.timestamp
  let (place, cursor) := p.cursor.advance c.isKey
  let groups := p.stats.groupsStarted + if place.opensGroup then 1 else 0
  let p := { p with cursor := cursor, stats.groupsStarted := groups }.noteBytes now payload.size
  let header : Transmission :=
    .header ⟨p.settings.track, place.group, place.subgroup, p.media.groupPriority⟩
  let object : Transmission := .object {
    track := p.settings.track
    epoch := p.epoch
    group := place.group
    subgroup := place.subgroup
    object := place.object
    payload := payload
    status := none }
  let marker := (place.closed.bind p.endMarker?).toList.map Transmission.object
  ((if cursor.headerSent then [] else [header]) ++ object :: marker, p)

def settle (p : Publisher W) (t : Transmission) (succeeded : Bool) : Publisher W :=
  if !succeeded then { p with stats.sendFailures := p.stats.sendFailures + 1 }
  else
    match t with
    | .header _ => { p with cursor := p.cursor.markHeaderSent }
    | .object o =>
      match o.status with
      | none => { p with stats.chunksSent := p.stats.chunksSent + 1 }
      | some _ => { p with stats.endOfGroupMarkers := p.stats.endOfGroupMarkers + 1 }
    | .flush => p

end Output

end Publisher

end LiveMedia
