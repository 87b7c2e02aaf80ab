import LiveMedia.Chunk
import LiveMedia.Timer

/-! # Sources of frames

A source is a script of cues: frames, effects on the encoders it feeds, movements of the clock and
pauses. After the script it may go on with frames at a steady pace, and then it ends or stalls. -/

namespace LiveMedia
set_option autoImplicit false

structure Frame where
  timestamp : Int64
  duration : Option UInt64
  size : Nat
deriving DecidableEq, Repr, Inhabited

/-- Frames at a steady pace. All times in nanoseconds. -/
structure Ticker where
  base : Int64
  size : Nat
  interval : Nat
  start : Nat
  index : Nat
  remaining : Nat
deriving DecidableEq, Repr, Inhabited

namespace Ticker

/-- Frames per second that are not above zero stand for thirty. -/
def rate (framerate : Float) : Float := if framerate > 0 then framerate else 30.0

def interval? (framerate : Float) : Option Nat :=
  (Timer.nanoseconds? (1.0 / rate framerate)).filter fun n => 0 < n

def count (framerate : Float) (length : Nat) : Nat :=
  let whole := (length / 1000000).toUInt64.toFloat
  let part := (length % 1000000 * 1000).toUInt64.toFloat / 1e9
  ((whole + part) * rate framerate).round.toUInt64.toNat

/-- Frames from `now` on, both times in microseconds. -/
def make? (base : Int64) (framerate : Float) (size length now : Nat) : Option Ticker :=
  (interval? framerate).map fun interval =>
    { base, size, interval, start := now * 1000, index := 0, remaining := count framerate length }

def frameLength (t : Ticker) : Nat := t.interval / 1000

def frame (t : Ticker) : Frame where
  timestamp := t.base + Int64.ofNat (t.index * t.frameLength)
  duration := some t.frameLength.toUInt64
  size := t.size

def deadline (t : Ticker) : Nat := t.start + t.index * t.interval

def next (t : Ticker) : Ticker := { t with index := t.index + 1, remaining := t.remaining - 1 }

def frames (t : Ticker) : Nat → List Frame
  | 0 => []
  | n + 1 => t.frame :: t.next.frames n

end Ticker

/-- One entry of a script. An effect acts on the encoders and may make them give out chunks. -/
inductive Cue (W : Type) where
  | frame (f : Frame)
  | effect (run : W → W × List Chunk)
  | advance (microseconds : Nat)
  | pause (milliseconds : Nat)
  | breakDown

structure Source (W : Type) where
  cues : List (Cue W)
  ticker : Option Ticker
  stalls : Bool

namespace Source

variable {W : Type}

def ofCues (cues : List (Cue W)) (stalls : Bool := false) : Source W := ⟨cues, none, stalls⟩

def ofFrames (frames : List Frame) : Source W := ofCues (frames.map .frame)

def ofTicker (t : Ticker) : Source W := ⟨[], some t, false⟩

/-- What a source has to give when it is asked. -/
inductive Supply (W : Type) where
  | frame (f : Frame) (rest : Source W)
  /-- Nothing before the deadline, in nanoseconds. -/
  | wait (deadline : Nat) (rest : Source W)
  | moved (microseconds : Nat) (rest : Source W)
  | stalled
  | ended
  | broken

/-- The answer of a source, with the encoders as its effects left them and the chunks they gave
out. -/
structure Answer (W : Type) where
  supply : Supply W
  codec : W
  emitted : List Chunk

def askTicker (now : Nat) (ticker : Option Ticker) (stalls : Bool) : Supply W :=
  match ticker with
  | none => if stalls then .stalled else .ended
  | some t =>
    if t.remaining = 0 then if stalls then .stalled else .ended
    else if Timer.due now t.deadline then .frame t.frame ⟨[], some t.next, stalls⟩
    else .wait t.deadline ⟨[.frame t.frame], some t.next, stalls⟩

/-- Goes through the script up to a frame or to a point where it has to wait. -/
def ask (now : Nat) (ticker : Option Ticker) (stalls : Bool) :
    List (Cue W) → W → List Chunk → Answer W
  | [], codec, emitted => ⟨askTicker now ticker stalls, codec, emitted⟩
  | .frame f :: rest, codec, emitted => ⟨.frame f ⟨rest, ticker, stalls⟩, codec, emitted⟩
  | .effect run :: rest, codec, emitted =>
    let (codec, more) := run codec
    ask now ticker stalls rest codec (emitted ++ more)
  | .advance us :: rest, codec, emitted => ⟨.moved us ⟨rest, ticker, stalls⟩, codec, emitted⟩
  | .pause ms :: rest, codec, emitted =>
    let deadline := (now + ms * 1000) * 1000
    if Timer.due now deadline then ask now ticker stalls rest codec emitted
    else ⟨.wait deadline ⟨rest, ticker, stalls⟩, codec, emitted⟩
  | .breakDown :: _, codec, emitted => ⟨.broken, codec, emitted⟩

def next (now : Nat) (s : Source W) (codec : W) : Answer W :=
  ask now s.ticker s.stalls s.cues codec []

end Source

end LiveMedia
