import LiveMedia.Codec.Simulated
import LiveMedia.Proofs.Transport.Lane
import LiveMedia.Session.Run

/-!
# Every interleaving of a session

The tasks of a session share a transport, and a call on it is more than one action. A weave is a
session that goes on by single actions, in whatever order they come.
-/

namespace LiveMedia
set_option autoImplicit false

/-- All that was sent for a medium was received by its player, and the router met nothing else. -/
structure SessionStats.Conserved (s : SessionStats) : Prop where
  received : ∀ m, (s.decode.get m).objectsReceived =
    (s.encode.get m).chunksSent + (s.encode.get m).endOfGroupMarkers
  sendFailures : ∀ m, (s.encode.get m).sendFailures = 0
  routed : s.routed = s.decode.video.objectsReceived + s.decode.audio.objectsReceived
  unknownTrack : s.unknownTrack = 0

structure Weave where
  session : Session SimulatedCodec
  resting : ℕ → Bool

namespace Weave

open SimulatedCodec

def start (settings : Settings) (encoders decoders : PerMedia SimulatedCodec) (link : Loopback)
    (now : ℕ) : Weave :=
  ⟨.new settings encoders decoders link none now, fun _ => false⟩

def lane (s : Weave) : Lane := ⟨s.session.link, s.resting⟩

def publisher (s : Weave) (m : Media) : PublishWorker SimulatedCodec := s.session.publishers.get m

def player (s : Weave) (m : Media) : PlayWorker SimulatedCodec := s.session.players.get m

def act (f : Session SimulatedCodec → Session SimulatedCodec) (s : Weave) : Weave :=
  { s with session := f s.session }

/-- A publisher as it is after its turn, with the transport as it left it. -/
def put (s : Weave) (m : Media) (w : PublishWorker SimulatedCodec) (l : Lane) : Weave :=
  ⟨{ s.session with link := l.loopback }.putPublisher m w, l.resting⟩

/-- One action of one task, or something that happens to it from outside. -/
inductive Move where
  | publish (m : Media) (now : ℕ)
  | play (m : Media) (now : ℕ)
  | route
  /-- The encoders of a medium change by themselves, as in a fault. -/
  | disturbEncoder (m : Media) (f : SimulatedCodec → SimulatedCodec)
  | disturbDecoder (m : Media) (run : SimulatedCodec → SimulatedCodec × List (ℕ × Picture))
  /-- Someone takes pictures from a screen, or closes it. -/
  | look (m : Media) (f : Screen → Screen)
  /-- The owner gives a publisher a new stream, if there is a place for the command. -/
  | attach (m : Media) (source : Source SimulatedCodec)

/-- Tasks may be asked to go on whether or not they can; only a router that has ended is gone. -/
def step (s : Weave) : Move → Weave
  | .publish m now =>
    let turn := ((s.publisher m).step (encoders m) Lane.carrier (Session.seat m) now s.lane).1
    s.put m turn.1 turn.2
  | .play m now => s.act fun t => t.putPlayer m ((t.players.get m).step decoders now)
  | .route => if s.session.router.ended then s else s.act Session.stepRouter
  | .disturbEncoder m f =>
    s.act (Session.updatePublisher m (.actOnPublisher fun p => { p with codec := f p.codec }))
  | .disturbDecoder m run => s.act (Session.updatePlayer m (.actOnPlayer (.actOnCodec run)))
  | .look m f => s.act (Session.updatePlayer m (.actOnPlayer (.actOnScreen f)))
  | .attach m source => s.act (Session.updatePublisher m fun w => (w.post (.attach source)).2)

def run (s : Weave) (moves : List Move) : Weave := moves.foldl step s

/-- The owner waits for a condition while all else goes on in any way. -/
def Awaits (s t : Weave) (done : Session SimulatedCodec → Bool) : Prop :=
  (∃ moves, t = s.run moves) ∧ done t.session = true

/-- The owner lets the session finish and is given these counts: it dismisses both publishers, tells
the router, and dismisses both players, and waits for each of them to end. -/
inductive Finishes (s : Weave) : SessionStats → Prop where
  | intro {video audio : PublishStats} {videoPlayed audioPlayed : PlayStats}
    (s₁ s₂ s₃ s₄ s₅ : Weave)
    (video_ended : (s.act (Session.updatePublisher .video PublishWorker.dismiss)).Awaits s₁
      fun t => t.publishers.video.isEnded)
    (video_result : (s₁.publisher .video).result = .ok video)
    (audio_ended : (s₁.act (Session.updatePublisher .audio PublishWorker.dismiss)).Awaits s₂
      fun t => t.publishers.audio.isEnded)
    (audio_result : (s₂.publisher .audio).result = .ok audio)
    (router_ended : (s₂.act Session.tellRouter).Awaits s₃ fun t => t.router.ended)
    (video_played : (s₃.act (Session.updatePlayer .video PlayWorker.dismiss)).Awaits s₄
      fun t => t.players.video.isEnded)
    (video_counts : (s₄.player .video).result = .ok videoPlayed)
    (audio_played : (s₄.act (Session.updatePlayer .audio PlayWorker.dismiss)).Awaits s₅
      fun t => t.players.audio.isEnded)
    (audio_counts : (s₅.player .audio).result = .ok audioPlayed) :
    Finishes s ⟨⟨video, audio⟩, ⟨videoPlayed, audioPlayed⟩, s₃.session.router.routed,
      s₃.session.router.unknown⟩

end Weave

end LiveMedia
