import LiveMedia.Session.Basic

/-! # Running a session

What the owner of a session does. A session that finishes ends both publishers, then the router,
then the players one after the other. -/

namespace LiveMedia
set_option autoImplicit false

structure SessionStats where
  encode : PerMedia PublishStats
  decode : PerMedia PlayStats
  routed : Nat
  unknownTrack : Nat

abbrev LiveSession (W : Type) := Schedule SessionTask (Session W)

namespace LiveSession

variable {W : Type}

/-- Begins a session if the settings are valid. Its tasks first run when its owner waits. -/
def start (settings : Settings) (encoders decoders : PerMedia W) (link : Loopback)
    (inlet : Option (Mailbox Received)) (now : Nat) : Except Failure (LiveSession W) :=
  settings.validate.map fun _ =>
    Schedule.start (Session.new settings encoders decoders link inlet now) now
      [ SessionTask.publish .video, .publish .audio, .play .video, .play .audio, .route ]

section Waiting

variable (tasks : TaskSystem SessionTask (Session W))

def attach (m : Media) (source : Source W) (s : LiveSession W) :
    Except Failure Unit × LiveSession W :=
  let s := s.waitFor tasks fun state => (state.publishers.get m).mailbox.accepts
  let (result, w) := (s.state.publishers.get m).post (.attach source)
  (result, s.modify tasks (Session.updatePublisher m fun _ => w))

/-- Sends an object from outside. Says whether the router is there to take it; nothing if no objects
come from outside. -/
def inject? (o : Received) (s : LiveSession W) : Option Bool × LiveSession W :=
  let accepts := fun (state : Session W) => match state.inlet with
    | some inlet => inlet.accepts
    | none => true
  let s := s.waitFor tasks accepts
  match s.state.inlet with
  | none => (none, s)
  | some inlet =>
    match inlet.post o with
    | some inlet => (some true, s.modify tasks fun state => { state with inlet := some inlet })
    | none => (some false, s)

abbrev Ending (W : Type) := ExceptT Failure (StateM (LiveSession W))

def act (f : Session W → Session W) : Ending W Unit := modify (Schedule.modify tasks f)

def wait (done : Session W → Bool) : Ending W Unit := modify (Schedule.waitFor tasks done)

def joinPublisher (m : Media) : Ending W PublishStats := do
  wait tasks fun s => (s.publishers.get m).isEnded
  ((← get).state.publishers.get m).result

def joinPlayer (m : Media) : Ending W PlayStats := do
  wait tasks fun s => (s.players.get m).isEnded
  ((← get).state.players.get m).result

def dismissPublisher (m : Media) : Ending W PublishStats := do
  act tasks (Session.updatePublisher m PublishWorker.dismiss)
  joinPublisher tasks m

def dismissPlayer (m : Media) : Ending W PlayStats := do
  act tasks (Session.updatePlayer m PlayWorker.dismiss)
  joinPlayer tasks m

def joinRouter : Ending W Router := do
  wait tasks fun s => s.router.ended
  return (← get).state.router

/-- Waits for the streams at hand and for everything in them to be played. -/
def finish : Ending W SessionStats := do
  let video ← dismissPublisher tasks .video
  let audio ← dismissPublisher tasks .audio
  act tasks Session.tellRouter
  let router ← joinRouter tasks
  let videoPlayed ← dismissPlayer tasks .video
  let audioPlayed ← dismissPlayer tasks .audio
  return ⟨⟨video, audio⟩, ⟨videoPlayed, audioPlayed⟩, router.routed, router.unknown⟩

def shutdown : Ending W SessionStats := do
  act tasks Session.cancelAll
  let router ← joinRouter tasks
  let video ← joinPublisher tasks .video
  let audio ← joinPublisher tasks .audio
  let videoPlayed ← joinPlayer tasks .video
  let audioPlayed ← joinPlayer tasks .audio
  return ⟨⟨video, audio⟩, ⟨videoPlayed, audioPlayed⟩, router.routed, router.unknown⟩

end Waiting

end LiveSession

end LiveMedia
