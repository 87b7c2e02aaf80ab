import LiveMedia.Schedule.Basic
import LiveMedia.Session.Router
import LiveMedia.Settings.Validation
import LiveMedia.Worker.Playing
import LiveMedia.Worker.Publishing

/-! # Sessions

A session publishes and plays both media at once. Two workers publish over one transport, a router
hands what comes in to two workers that play. What comes in is what the transport delivers, or
objects from outside. -/

namespace LiveMedia
set_option autoImplicit false

inductive SessionTask where
  | publish (m : Media)
  | play (m : Media)
  | route
deriving DecidableEq, Repr

namespace SessionTask

/-- Tasks that are told to stop at once stand in line in this order. -/
def all : List SessionTask :=
  [.route, .play .audio, .play .video, .publish .audio, .publish .video]

theorem mem_all (t : SessionTask) : t ∈ all := by
  cases t with
  | publish m => cases m <;> decide
  | play m => cases m <;> decide
  | route => decide

end SessionTask

structure Session (W : Type) where
  publishers : PerMedia (PublishWorker W)
  players : PerMedia (PlayWorker W)
  router : Router
  link : Loopback
  inlet : Option (Mailbox Received)
  events : List Event

namespace Session

variable {W : Type}

def screenCapacity : Nat := 32

/-- The number of a publisher among the users of the transport. -/
def seat : Media → Nat
  | .video => 0
  | .audio => 1

/-- The number of the router among those who send to a player. The owner has another. -/
def routerSeat : Nat := 1

/-- A publisher and its worker. The capture clock is made with the session. Both publishers might
hold one clock between them: they only read it, and each reading is the time since the session was
made, whoever else has read it before. So it makes no difference that each has a clock of its own
(`Session.reading_of_goes`, `CaptureClock.Unset.read`). -/
def newPublisher (s : MediaSettings) (m : Media) (codec : W) (now : Nat) : PublishWorker W :=
  let w := PublishWorker.new (.new (s.publishSettings m) codec (.startingAt now 0) now)
  (w.post (.configure s.codecConfig)).2

/-- Both the owner and the router send to a player. -/
def newPlayer (s : MediaSettings) (m : Media) (codec : W) (now : Nat) : PlayWorker W :=
  .new (.new (s.playSettings m) codec s.codecConfig (.empty screenCapacity) now) 2

def new (s : Settings) (encoders decoders : PerMedia W) (link : Loopback)
    (inlet : Option (Mailbox Received)) (now : Nat) : Session W where
  publishers :=
    ⟨newPublisher s.video .video encoders.video now, newPublisher s.audio .audio encoders.audio now⟩
  players :=
    ⟨newPlayer s.video .video decoders.video now, newPlayer s.audio .audio decoders.audio now⟩
  router := { tracks := ⟨s.video.trackAlias, s.audio.trackAlias⟩ }
  link := link
  inlet := inlet
  events := []

def updatePublisher (m : Media) (f : PublishWorker W → PublishWorker W) (s : Session W) :
    Session W :=
  { s with publishers := s.publishers.set m (f (s.publishers.get m)) }

def updatePlayer (m : Media) (f : PlayWorker W → PlayWorker W) (s : Session W) : Session W :=
  { s with players := s.players.set m (f (s.players.get m)) }

def tellRouter (s : Session W) : Session W := { s with router := { s.router with told := true } }

def cancelAll (s : Session W) : Session W :=
  { s with
    publishers := s.publishers.map PublishWorker.cancel
    players := s.players.map PlayWorker.cancel }.tellRouter

section Routing

def inbound? (s : Session W) : Option (Received × Session W) :=
  match s.inlet with
  | some inlet => inlet.take?.map fun (o, inlet) => (o, { s with inlet := some inlet })
  | none => s.link.channel.take?.map fun (o, channel) =>
      (o, { s with link := { s.link with channel := channel } })

def inboundIsOver (s : Session W) : Bool :=
  match s.inlet with
  | some inlet => inlet.isOver
  | none =>
    s.link.channel.queue.isEmpty && s.publishers.video.isEnded && s.publishers.audio.isEnded

/-- The router goes. Nothing can come in any more, and the players have a sender less. -/
def endRouter (s : Session W) : Session W :=
  let s := { s with
    router := { s.router with ended := true }
    players := s.players.map PlayWorker.dismiss }
  match s.inlet with
  | some inlet => { s with inlet := some inlet.close }
  | none => { s with link := { s.link with channel := s.link.channel.close } }

/-- Hands an object to a player, and stands in line where there is no place. -/
def handOver (s : Session W) (m : Media) (o : Received) : Session W :=
  let w := s.players.get m
  let put := fun channel => s.players.set m { w with mailbox := { w.mailbox with channel } }
  match w.mailbox.channel.offer routerSeat o with
  | .taken channel => { s with players := put channel, router := s.router.settle true }
  | .waiting channel => { s with players := put channel }
  | .refused => { s with router := s.router.settle false }

def stepRouter (s : Session W) : Session W :=
  let drain := fun (s : Session W) => { s with router := { s.router with draining := true } }
  match s.router.held with
  | some (m, o) => s.handOver m o
  | none =>
    if s.router.told && !s.router.draining then drain s
    else
      match s.inbound? with
      | some (o, s) => { s with router := s.router.take o }
      | none =>
        if s.router.draining then s.endRouter
        else if s.inboundIsOver then drain s
        else s

def canStepRouter (s : Session W) : Bool :=
  !s.router.ended &&
    match s.router.held with
    | some (m, _) => (s.players.get m).mailbox.channel.accepts routerSeat
    | none => s.router.told || s.router.draining || s.inbound?.isSome || s.inboundIsOver

end Routing

section Steps

variable (enc : Media → EncoderFamily W) (dec : DecoderFamily W)

def putPublisher (s : Session W) (m : Media) (w : PublishWorker W) : Session W :=
  { s with
    publishers := s.publishers.set m (w.actOnPublisher .forgetEvents)
    events := s.events ++ w.publisher.events }

def putPlayer (s : Session W) (m : Media) (w : PlayWorker W) : Session W :=
  { s with
    players := s.players.set m (w.actOnPlayer .forgetEvents)
    events := s.events ++ w.player.events }

def step (now : Nat) (t : SessionTask) (s : Session W) : Session W × Option Nat :=
  match t with
  | .publish m =>
    let ((w, link), moved) :=
      (s.publishers.get m).step (enc m) Loopback.carrier (seat m) now s.link
    ({ s with link := link }.putPublisher m w, moved)
  | .play m => (s.putPlayer m ((s.players.get m).step dec now), none)
  | .route => (s.stepRouter, none)

def canStep (s : Session W) (now : Nat) : SessionTask → Bool
  | .publish m => (s.publishers.get m).canStep Loopback.carrier (seat m) now s.link
  | .play m => (s.players.get m).canStep now
  | .route => s.canStepRouter

def deadline? (s : Session W) : SessionTask → Option Nat
  | .publish m => (s.publishers.get m).deadline?
  | .play m => (s.players.get m).deadline?
  | .route => none

def tasks : TaskSystem SessionTask (Session W) where
  tasks := SessionTask.all
  canStep := canStep
  step := step enc dec
  deadline? := deadline?

end Steps

end Session

end LiveMedia
