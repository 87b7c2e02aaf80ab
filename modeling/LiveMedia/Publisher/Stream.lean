import LiveMedia.Publisher.Basic

/-! # Publishing a stream from beginning to end

Chunks that have come out of the encoder are sent before the source is asked for its next frame.
When the source ends, the encoder is flushed, what it held is sent, and the transport is told. -/

namespace LiveMedia
set_option autoImplicit false

/-- A transport whose calls end at once. -/
structure Link (S : Type) where
  send : Transmission → S → Except LinkFault Unit × S

/-- A publisher on its link at a moment in microseconds. -/
structure Broadcast (W S : Type) where
  publisher : Publisher W
  link : S
  now : Nat

inductive StreamEnd where
  | ended
  /-- The source made its user wait too long, and the rest of the stream was given up. -/
  | abandoned
  /-- The source or the publisher failed beyond repair. -/
  | broken
deriving DecidableEq, Repr

namespace Broadcast

variable {W S : Type} (enc : EncoderFamily W) (link : Link S)

def send (b : Broadcast W S) (t : Transmission) : Broadcast W S :=
  match link.send t b.link with
  | (.ok _, s) => { b with publisher := b.publisher.settle t true, link := s }
  | (.error _, s) => { b with publisher := b.publisher.settle t false, link := s }

def sendAll (b : Broadcast W S) (ts : List Transmission) : Broadcast W S := ts.foldl (send link) b

def handle (b : Broadcast W S) (c : Chunk) : Broadcast W S :=
  let (ts, p) := b.publisher.handle b.now c
  { b with publisher := p }.sendAll link ts

def drain (b : Broadcast W S) : Broadcast W S :=
  b.publisher.outputs.foldl (handle link) { b with publisher := { b.publisher with outputs := [] } }

def submit (b : Broadcast W S) (f : Frame) : Broadcast W S :=
  { b with publisher := b.publisher.submit enc b.now f }

def finish (b : Broadcast W S) : Broadcast W S :=
  let b := { b with publisher := b.publisher.flushEncoder enc }.drain link
  let b := b.send link .flush
  { b with publisher := b.publisher.endStream }

def apply (b : Broadcast W S) (run : W → W × List Chunk) : Broadcast W S :=
  { b with publisher := b.publisher.actOnCodec run }

/-- Waits for a deadline in nanoseconds, but not longer than up to the millisecond `limit`. -/
def waitFor (b : Broadcast W S) (limit deadline : Nat) : Option (Broadcast W S) × Broadcast W S :=
  let reached := { b with now := Timer.wake b.now (min limit (Timer.tick deadline)) }
  if limit ≤ Timer.passed b.now ∨ limit < Timer.tick deadline then (none, reached)
  else (some reached, reached)

def runTicker (limit : Nat) : (remaining : Nat) → Ticker → Broadcast W S →
    StreamEnd × Broadcast W S
  | 0, _, b => if b.publisher.broken then (.broken, b) else (.ended, b.drain link)
  | remaining + 1, t, b =>
    if b.publisher.broken then (.broken, b)
    else
      let b := b.drain link
      if Timer.due b.now t.deadline then
        runTicker limit remaining t.next (b.submit enc t.frame)
      else
        match b.waitFor limit t.deadline with
        | (none, b) => (.abandoned, b)
        | (some b, _) => runTicker limit remaining t.next (b.submit enc t.frame)

/-- Goes through a script. Outputs are sent before each cue that ends a wait or follows a frame, but
effects follow each other without a pause. -/
def runCues (limit : Nat) : List (Cue W) → Broadcast W S → StreamEnd × Broadcast W S
  | [], b => (.ended, b)
  | .frame f :: rest, b =>
    let b := b.submit enc f
    if b.publisher.broken then (.broken, b) else runCues limit rest (b.drain link)
  | .effect run :: rest, b => runCues limit rest (b.apply run)
  | .advance us :: rest, b =>
    if limit ≤ Timer.passed b.now then (.abandoned, b)
    else runCues limit rest ({ b with now := b.now + us }.drain link)
  | .pause ms :: rest, b =>
    let deadline := (b.now + ms * 1000) * 1000
    if Timer.due b.now deadline then runCues limit rest b
    else
      match (b.drain link).waitFor limit deadline with
      | (none, b) => (.abandoned, b)
      | (some b, _) => runCues limit rest b
  | .breakDown :: _, b => (.broken, b)

def runSource (limit : Nat) (src : Source W) (b : Broadcast W S) : StreamEnd × Broadcast W S :=
  match runCues enc link limit src.cues b with
  | (.ended, b) =>
    match src.ticker with
    | none => (.ended, b)
    | some t => runTicker enc link limit t.remaining t b
  | other => other

/-- Publishes a stream. A wait that would go beyond the millisecond `limit` ends with the stream
abandoned, and with it the publisher loses what its encoders give out from then on. -/
def attach (limit : Nat) (src : Source W) (b : Broadcast W S) : StreamEnd × Broadcast W S :=
  if !b.publisher.receiving then (.ended, b)
  else
    let begun := { b with publisher := b.publisher.beginStream b.now }.drain link
    match runSource enc link limit src begun with
    | (.ended, b) =>
      if src.stalls then
        let b := b.drain link
        (.abandoned, { b with
          publisher := { b.publisher with receiving := false, outputs := [] }
          now := Timer.wake b.now limit })
      else (.ended, b.finish enc link)
    | (.abandoned, b) =>
      (.abandoned, { b with publisher := { b.publisher with receiving := false, outputs := [] } })
    | other => other

end Broadcast

end LiveMedia
