import LiveMedia.Codec.Simulated
import LiveMedia.Session.Run
import LiveMedia.Settings.File
import LiveMedia.Simulator.CommandLine
import LiveMedia.Simulator.LogFilter

/-! # The simulator

A session with simulated codecs over a loopback transport, with captures of a given length. Pictures
are taken off the screens as soon as they are shown. -/

namespace LiveMedia.Simulator
set_option autoImplicit false

abbrev SimulatedSession := Session SimulatedCodec

def watchScreens (s : SimulatedSession) : SimulatedSession :=
  { s with players := s.players.map fun w =>
      w.actOnPlayer fun p => p.actOnScreen fun screen => { screen with waiting := [] } }

def tasks : TaskSystem SessionTask SimulatedSession :=
  let sys := Session.tasks SimulatedCodec.encoders SimulatedCodec.decoders
  { sys with
    step := fun now t s =>
      let (s, moved) := sys.step now t s
      (watchScreens s, moved) }

def linkCapacity : Nat := 1024

def captureBase : Int64 := 5000000

def frameSize (s : MediaSettings) : Nat :=
  ((s.bitrate / 8).toFloat / s.framerate).toUInt64.toNat

/-- The capture of a medium. Nothing if its frames cannot be paced. -/
def capture? (s : MediaSettings) (seconds : Nat) : Option (Source SimulatedCodec) :=
  (Ticker.make? captureBase s.framerate (frameSize s) (seconds * 1000000) 0).map Source.ofTicker

inductive Trouble where
  | failure (cause : Failure)
  | noCapture

def run (settings : Settings) (o : Options) (chance : Nat → Bool) :
    Except Trouble SessionStats := do
  let codecs : PerMedia SimulatedCodec := ⟨{}, {}⟩
  let link := Loopback.make linkCapacity o.reorder chance
  let s ← (LiveSession.start settings codecs codecs link none 0).mapError .failure
  let attach := fun (m : Media) (s : LiveSession SimulatedCodec) =>
    match capture? (settings.media m) o.duration with
    | none => Except.error Trouble.noCapture
    | some source =>
      match LiveSession.attach tasks m source s with
      | (.ok _, s) => .ok s
      | (.error e, _) => .error (.failure e)
  let s ← attach .video s
  let s ← attach .audio s
  ((LiveSession.finish tasks).run.run s).1.mapError .failure

section Report

def decimal (n : Nat) : String := toString n

def encodeLine (m : Media) (s : PublishStats) : String :=
  m.name ++ " encode: submitted " ++ decimal s.framesSubmitted
    ++ ", backpressure drops " ++ decimal s.droppedBackpressure
    ++ ", sent " ++ decimal s.chunksSent
    ++ ", groups " ++ decimal s.groupsStarted
    ++ ", markers " ++ decimal s.endOfGroupMarkers
    ++ ", send failures " ++ decimal s.sendFailures

def decodeLine (m : Media) (s : PlayStats) : String :=
  m.name ++ " decode: received " ++ decimal s.objectsReceived
    ++ ", played " ++ decimal s.entriesPlayed
    ++ ", decoded " ++ decimal s.chunksDecoded
    ++ ", rendered " ++ decimal s.framesRendered
    ++ ", keyframe waits " ++ decimal s.keyframeWaitDiscards
    ++ ", late " ++ decimal s.lateDrops
    ++ ", overflow " ++ decimal s.overflowDrops

/-- A line about the way from capture to encoding, where a frame has gone it. -/
def latencyLines (m : Media) (s : PublishStats) : List String :=
  match s.lastLatency with
  | some us => [m.name ++ " capture-to-encode latency: " ++ Json.Value.intText us ++ " us"]
  | none => []

/-- A line about restarts, where there were any. -/
def restartLines (m : Media) (s : PlayStats) : List String :=
  if s.streamRestarts = 0 then []
  else [m.name ++ " stream restarts: " ++ decimal s.streamRestarts
    ++ ", stale objects dropped: " ++ decimal s.staleEpochDrops]

def mediaLines (s : SessionStats) (m : Media) : List String :=
  encodeLine m (s.encode.get m) :: latencyLines m (s.encode.get m)
    ++ decodeLine m (s.decode.get m) :: restartLines m (s.decode.get m)

/-- Every picture that was rendered has been taken off its screen. -/
def summary (s : SessionStats) : List String :=
  mediaLines s .video ++ mediaLines s .audio ++
    [ "Router: " ++ decimal s.routed ++ " objects routed, " ++ decimal s.unknownTrack
        ++ " unknown track",
      "Render sinks received " ++ decimal s.decode.video.framesRendered ++ " video and "
        ++ decimal s.decode.audio.framesRendered ++ " audio frames" ]

def startLine (o : Options) : String :=
  "Starting simulation: " ++ decimal o.duration ++ "s, reorder probability "
    ++ String.ofList (Decimal.fixedPlaces 2 o.reorder)

end Report

structure Report where
  exitCode : UInt8
  /-- What is printed instead of a simulation. -/
  text : String := ""
  complaint : String := ""
  start : List String := []
  summary : List String := []
  file : SettingsFile

def versionText : String := "Media Pipeline Simulator 1.0\n"

def helpText : String :=
  "Runs synthetic audio and video through the encode and decode pipelines over a loopback\n"
    ++ "transport\n\nUsage: pipeline-sim [OPTIONS]\n\nOptions:\n"
    ++ "  -c, --config <FILE>          Settings file, made with the defaults if missing\n"
    ++ "  -d, --duration <SECONDS>     Length of the capture [default: 10]\n"
    ++ "  -r, --reorder <PROBABILITY>  Probability of swapping neighbours [default: 0.0]\n"
    ++ "  -h, --help                   Print help\n"
    ++ "  -V, --version                Print version\n"

/-- The name under which the program writes to its log. -/
def logTarget : String := "pipeline_sim"

def simulate (o : Options) (file : SettingsFile) (chance : Nat → Bool) : Report :=
  let (loaded, file) := if o.config.isSome then file.load else (.ok {}, file)
  match loaded with
  | .error e => { exitCode := 1, complaint := e.message, file }
  | .ok settings =>
    let log := fun (lines : List String) =>
      if (LogFilter.parse settings.logLevel).shows logTarget .info then lines else []
    let start := log [startLine o]
    match run settings o chance with
    | .ok stats => { exitCode := 0, start, summary := log (summary stats), file }
    | .error (.failure e) => { exitCode := 1, complaint := e.message, start, file }
    | .error .noCapture => { exitCode := 101, complaint := "no capture", start, file }

/-- The whole program, given what stands at the path that its arguments name. -/
def execute (args : List String) (fileAt : String → SettingsFile)
    (chance : Nat → Bool := fun _ => true) : Report :=
  match Invocation.ofArguments args with
  | .misused => { exitCode := 2, complaint := helpText, file := .absent }
  | .help => { exitCode := 0, text := helpText, file := .absent }
  | .version => { exitCode := 0, text := versionText, file := .absent }
  | .simulate o => simulate o ((o.config.map fileAt).getD .absent) chance

end LiveMedia.Simulator
