import LiveMedia.Player.Basic
import LiveMedia.Worker.Mailbox

/-! # Playing workers

A worker owns a player. It stops when it is cancelled, takes the objects that are sent to it, and
ticks at a steady pace. When nobody can send objects any more, it goes on until nothing is
buffered. -/

namespace LiveMedia
set_option autoImplicit false

structure PlayWorker (W : Type) where
  player : Player W
  mailbox : Mailbox Received
  /-- False once the worker knows that no more objects will come. -/
  listening : Bool
  cancelled : Bool
  /-- When the next tick is due, in nanoseconds; nothing before the worker has begun. -/
  tickAt : Option Nat
  ended : Option WorkerEnd

namespace PlayWorker

variable {W : Type}

def new (player : Player W) (senders : Nat) : PlayWorker W where
  player := player
  mailbox := .empty senders
  listening := true
  cancelled := false
  tickAt := none
  ended := none

def finish (w : PlayWorker W) (how : WorkerEnd) : PlayWorker W :=
  { w with ended := some how, mailbox := w.mailbox.close }

def isEnded (w : PlayWorker W) : Bool := w.ended.isSome

def result (w : PlayWorker W) : Except Failure PlayStats :=
  if w.ended = some .failed then .error (.workerGone w.player.media) else .ok w.player.stats

/-- Gives the worker an object for which there is a place. It fails when the worker has ended. -/
def post (o : Received) (w : PlayWorker W) : Except Failure Unit × PlayWorker W :=
  match w.mailbox.post o with
  | some mailbox => (.ok (), { w with mailbox := mailbox })
  | none => (.error (.workerGone w.player.media), w)

def actOnPlayer (f : Player W → Player W) (w : PlayWorker W) : PlayWorker W :=
  { w with player := f w.player }

def dismiss (w : PlayWorker W) : PlayWorker W := { w with mailbox := w.mailbox.leave }

def cancel (w : PlayWorker W) : PlayWorker W := { w with cancelled := true }

def period (w : PlayWorker W) : Nat := w.player.settings.playoutInterval * 1000

/-- The first tick is due at once. There is no pace of zero. -/
def begin (w : PlayWorker W) (now : Nat) : PlayWorker W :=
  if w.period = 0 then w.finish .failed else { w with tickAt := some (now * 1000) }

def hear (w : PlayWorker W) (now : Nat) : PlayWorker W :=
  match w.mailbox.take? with
  | some (o, mailbox) => { w with mailbox := mailbox, player := w.player.receive now o }
  | none => { w with listening := false }

def tick (dec : DecoderFamily W) (w : PlayWorker W) (now deadline : Nat) : PlayWorker W :=
  let w := { w with
    tickAt := some (Timer.nextTick now deadline w.period)
    player := (w.player.tick dec now).2 }
  if !w.listening && w.player.buffer.size == 0 then w.finish .stopped else w

/-- One step: at most one object or one tick. -/
def step (dec : DecoderFamily W) (now : Nat) (w : PlayWorker W) : PlayWorker W :=
  match w.ended, w.tickAt with
  | some _, _ => w
  | none, none => w.begin now
  | none, some deadline =>
    if w.cancelled then w.finish .stopped
    else if w.listening && w.mailbox.hasNews then w.hear now
    else if Timer.due now deadline then w.tick dec now deadline
    else w

def canStep (now : Nat) (w : PlayWorker W) : Bool :=
  match w.ended, w.tickAt with
  | some _, _ => false
  | none, none => true
  | none, some deadline =>
    w.cancelled || (w.listening && w.mailbox.hasNews) || Timer.due now deadline

def deadline? (w : PlayWorker W) : Option Nat := if w.isEnded then none else w.tickAt

end PlayWorker

end LiveMedia
