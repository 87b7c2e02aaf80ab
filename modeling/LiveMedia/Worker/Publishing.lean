import LiveMedia.Transport.Carrier
import LiveMedia.Worker.Mailbox

/-! # Publishing workers

A worker owns a publisher and takes commands. Of what it could do it does the first: stop when it is
cancelled, follow a command, send what came out of the encoder, ask the source for a frame. A new
source replaces the one before it, whose stream is brought to an end first. When nobody can send
commands any more, it ends with the stream at hand. -/

namespace LiveMedia
set_option autoImplicit false

inductive PublishCommand (W : Type) where
  | configure (c : CodecConfig)
  | attach (source : Source W)

inductive PublishPhase (W : Type) where
  | serving
  /-- The stream is over, and what the encoder held is being sent. A new source may be waiting. -/
  | draining (next : Option (Source W))
  /-- The transport is told that the stream is over. -/
  | closing (next : Option (Source W))
  | ended (how : WorkerEnd)

inductive SourceWait where
  | over
  /-- Nanoseconds. -/
  | untilDeadline (deadline : Nat)
  | forever
deriving DecidableEq, Repr

structure PublishWorker (W : Type) where
  publisher : Publisher W
  mailbox : Mailbox (PublishCommand W)
  /-- False once the worker knows that no more commands will come. -/
  listening : Bool
  cancelled : Bool
  source : Option (Source W)
  sourceWait : SourceWait
  phase : PublishPhase W
  calls : List Transmission
  call : Option (Transmission × Delivery)

namespace PublishWorker

variable {W S : Type}

def new (publisher : Publisher W) : PublishWorker W where
  publisher := publisher
  mailbox := .empty 1
  listening := true
  cancelled := false
  source := none
  sourceWait := .over
  phase := .serving
  calls := []
  call := none

def isEnded (w : PublishWorker W) : Bool :=
  match w.phase with
  | .ended _ => true
  | _ => false

def finish (w : PublishWorker W) (how : WorkerEnd) : PublishWorker W :=
  { w with phase := .ended how, source := none, mailbox := w.mailbox.close }

def result (w : PublishWorker W) : Except Failure PublishStats :=
  match w.phase with
  | .ended .failed => .error (.workerGone w.publisher.media)
  | _ => .ok w.publisher.stats

/-- Gives the worker a command for which there is a place. It fails when the worker has ended. -/
def post (c : PublishCommand W) (w : PublishWorker W) : Except Failure Unit × PublishWorker W :=
  match w.mailbox.post c with
  | some mailbox => (.ok (), { w with mailbox := mailbox })
  | none => (.error (.workerGone w.publisher.media), w)

def actOnPublisher (f : Publisher W → Publisher W) (w : PublishWorker W) : PublishWorker W :=
  { w with publisher := f w.publisher }

def dismiss (w : PublishWorker W) : PublishWorker W := { w with mailbox := w.mailbox.leave }

def cancel (w : PublishWorker W) : PublishWorker W := { w with cancelled := true }

def begin (w : PublishWorker W) (now : Nat) (source : Source W) : PublishWorker W :=
  { w with
    publisher := w.publisher.beginStream now
    source := some source
    sourceWait := .over
    phase := .serving }

section Steps

variable (enc : EncoderFamily W)

def endSource (w : PublishWorker W) (next : Option (Source W)) : PublishWorker W :=
  { w with
    publisher := w.publisher.flushEncoder enc
    source := none
    phase := .draining next }

/-- Turns to a new source, if need be after the end of the stream at hand. -/
def attach (w : PublishWorker W) (now : Nat) (source : Source W) : PublishWorker W :=
  if w.source.isSome then w.endSource enc (some source) else w.begin now source

def follow (w : PublishWorker W) (now : Nat) : PublishCommand W → PublishWorker W
  | .configure c => { w with publisher := (w.publisher.configure enc c).2 }
  | .attach source => w.attach enc now source

def hear (w : PublishWorker W) (now : Nat) : PublishWorker W :=
  match w.mailbox.take? with
  | some (command, mailbox) => { w with mailbox := mailbox }.follow enc now command
  | none =>
    let w := { w with listening := false }
    if w.source.isSome then w else w.finish .stopped

def askSource (w : PublishWorker W) (now : Nat) (source : Source W) :
    PublishWorker W × Option Nat :=
  let answer := source.next now w.publisher.codec
  let w := { w with
    publisher := { w.publisher with codec := answer.codec }.deliver answer.emitted }
  match answer.supply with
  | .frame f rest =>
    let publisher := w.publisher.submit enc now f
    let w := { w with publisher := publisher, source := some rest }
    (if publisher.broken then w.finish .failed else w, none)
  | .wait deadline rest =>
    ({ w with source := some rest, sourceWait := .untilDeadline deadline }, none)
  | .moved us rest => ({ w with source := some rest }, some us)
  | .stalled => ({ w with sourceWait := .forever }, none)
  | .ended => (w.endSource enc none, none)
  | .broken => (w.finish .failed, none)

/-- Handles the first chunk that came out of the encoder. -/
def handleOutput (w : PublishWorker W) (now : Nat) (c : Chunk) (rest : List Chunk) :
    PublishWorker W :=
  let (calls, publisher) := { w.publisher with outputs := rest }.handle now c
  { w with publisher := publisher, calls := calls }

def canAsk (w : PublishWorker W) (now : Nat) : Bool :=
  w.source.isSome &&
    match w.sourceWait with
    | .over => true
    | .untilDeadline deadline => Timer.due now deadline
    | .forever => false

/-- A step of a worker that has no call to make. -/
def serve (w : PublishWorker W) (now : Nat) : PublishWorker W × Option Nat :=
  if !w.publisher.receiving || w.cancelled then (w.finish .stopped, none)
  else if w.listening && w.mailbox.hasNews then (w.hear enc now, none)
  else
    match w.publisher.outputs, w.source with
    | c :: rest, _ => (w.handleOutput now c rest, none)
    | [], some source =>
      if w.canAsk now then { w with sourceWait := .over }.askSource enc now source else (w, none)
    | [], none => (w, none)

def conclude (w : PublishWorker W) (now : Nat) (next : Option (Source W)) : PublishWorker W :=
  let w := { w with publisher := w.publisher.endStream, phase := .serving }
  match next with
  | some source => w.begin now source
  | none => if w.listening then w else w.finish .stopped

def note (w : PublishWorker W) (t : Transmission) : Progress → PublishWorker W
  | .done result =>
    { w with call := none, publisher := w.publisher.settle t (result matches .ok _) }
  | .going d | .blocked d => { w with call := some (t, d) }

variable (carrier : Carrier S) (who : Nat)

/-- One step: at most one command, one chunk, one frame or one call. -/
def step (now : Nat) (w : PublishWorker W) (s : S) : (PublishWorker W × S) × Option Nat :=
  match w.call, w.calls with
  | some (t, d), _ =>
    let (progress, s) := carrier.resume who d s
    ((w.note t progress, s), none)
  | none, t :: rest =>
    let (progress, s) := carrier.send who t s
    (({ w with calls := rest }.note t progress, s), none)
  | none, [] =>
    match w.phase with
    | .serving =>
      let (w, moved) := w.serve enc now
      ((w, s), moved)
    | .draining next =>
      match w.publisher.outputs with
      | c :: rest => ((w.handleOutput now c rest, s), none)
      | [] => (({ w with calls := [.flush], phase := .closing next }, s), none)
    | .closing next => ((w.conclude now next, s), none)
    | .ended _ => ((w, s), none)

def canStep (now : Nat) (w : PublishWorker W) (s : S) : Bool :=
  match w.phase, w.call with
  | .ended _, _ => false
  | _, some _ => carrier.canResume who s
  | .serving, none =>
    !w.calls.isEmpty || !w.publisher.receiving || w.cancelled
      || (w.listening && w.mailbox.hasNews) || !w.publisher.outputs.isEmpty || w.canAsk now
  | _, none => true

end Steps

def deadline? (w : PublishWorker W) : Option Nat :=
  match w.source, w.sourceWait with
  | some _, .untilDeadline deadline => some deadline
  | _, _ => none

end PublishWorker

end LiveMedia
