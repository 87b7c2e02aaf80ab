import LiveMedia.Schedule.Basic
import LiveMedia.Worker.Playing
import LiveMedia.Worker.Publishing

/-! # Workers on their own

A worker that is the only task, seen from its owner. -/

namespace LiveMedia
set_option autoImplicit false

namespace PublishWorker

variable {W S : Type}

/-- The worker has a transport for itself. -/
def alone (enc : EncoderFamily W) (carrier : Carrier S) :
    TaskSystem Unit (PublishWorker W × S) where
  tasks := [()]
  canStep state now _ := state.1.canStep carrier 0 now state.2
  step now _ state := state.1.step enc carrier 0 now state.2
  deadline? state _ := state.1.deadline?

variable (enc : EncoderFamily W) (carrier : Carrier S)

def send (c : PublishCommand W) (s : Schedule Unit (PublishWorker W × S)) :
    Except Failure Unit × Schedule Unit (PublishWorker W × S) :=
  let s := s.waitFor (alone enc carrier) fun state => state.1.mailbox.accepts
  let (result, w) := s.state.1.post c
  (result, s.modify (alone enc carrier) fun state => (w, state.2))

def join (s : Schedule Unit (PublishWorker W × S)) :
    Except Failure PublishStats × Schedule Unit (PublishWorker W × S) :=
  let s := s.waitFor (alone enc carrier) fun state => state.1.isEnded
  (s.state.1.result, s)

end PublishWorker

namespace PlayWorker

variable {W : Type}

def alone (dec : DecoderFamily W) : TaskSystem Unit (PlayWorker W) where
  tasks := [()]
  canStep w now _ := w.canStep now
  step now _ w := (w.step dec now, none)
  deadline? w _ := w.deadline?

variable (dec : DecoderFamily W)

def send (o : Received) (s : Schedule Unit (PlayWorker W)) :
    Except Failure Unit × Schedule Unit (PlayWorker W) :=
  let s := s.waitFor (alone dec) fun w => w.mailbox.accepts
  let (result, w) := s.state.post o
  (result, s.modify (alone dec) fun _ => w)

def join (s : Schedule Unit (PlayWorker W)) :
    Except Failure PlayStats × Schedule Unit (PlayWorker W) :=
  let s := s.waitFor (alone dec) isEnded
  (s.state.result, s)

end PlayWorker

end LiveMedia
