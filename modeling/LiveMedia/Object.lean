import LiveMedia.Chunk
import LiveMedia.Fault

/-! # Transport objects

Objects are numbered by track, epoch, group and place in the group. A status other than normal
marks the end of a group or track. -/

namespace LiveMedia
set_option autoImplicit false

inductive ObjectStatus where
  | normal
  | endOfGroup
  | endOfTrackAndGroup
  | endOfTrack
deriving DecidableEq, Repr, Inhabited

namespace ObjectStatus

def code : ObjectStatus → Nat
  | normal => 0
  | endOfGroup => 3
  | endOfTrackAndGroup => 4
  | endOfTrack => 5

def ofCode? : Nat → Option ObjectStatus
  | 0 => some normal
  | 3 => some endOfGroup
  | 4 => some endOfTrackAndGroup
  | 5 => some endOfTrack
  | _ => none

def name : ObjectStatus → String
  | normal => "Normal"
  | endOfGroup => "EndOfGroup"
  | endOfTrackAndGroup => "EndOfTrackAndGroup"
  | endOfTrack => "EndOfTrack"

def isEndMarker (s : ObjectStatus) : Bool := s != normal

def all : List ObjectStatus := [normal, endOfGroup, endOfTrackAndGroup, endOfTrack]

theorem mem_all (s : ObjectStatus) : s ∈ all := by cases s <;> decide

@[simp] theorem ofCode?_code (s : ObjectStatus) : ofCode? s.code = some s := by cases s <;> rfl

theorem ofCode?_eq_some_iff {n : Nat} {s : ObjectStatus} : ofCode? n = some s ↔ n = s.code := by
  refine ⟨fun h => ?_, fun h => h ▸ ofCode?_code s⟩
  unfold ofCode? at h
  split at h <;> simp at h <;> subst h <;> rfl

/-- A code that stands for nothing is refused. -/
def ofWire (code : Nat) : Except WireFault ObjectStatus :=
  match ofCode? code with
  | some s => .ok s
  | none => .error (.invalidStatus code)

end ObjectStatus

structure GroupHeader where
  track : Nat
  group : Nat
  subgroup : Nat
  priority : Nat
deriving DecidableEq, Repr, Inhabited

/-- An object as the sending side hands it over; no status stands for normal. -/
structure Outgoing where
  track : Nat
  epoch : Nat
  group : Nat
  subgroup : Nat
  object : Nat
  payload : ByteArray
  status : Option ObjectStatus
deriving DecidableEq, Inhabited

def Outgoing.statusCode (o : Outgoing) : Nat := (o.status.getD .normal).code

structure Received where
  track : Nat
  epoch : Nat
  group : Nat
  object : Nat
  payload : ByteArray
  status : ObjectStatus
deriving DecidableEq, Inhabited

def Received.isControl (o : Received) : Bool := o.status.isEndMarker || o.payload.size == 0

/-- What arrives when an object is sent unchanged. -/
def Outgoing.received (o : Outgoing) : Received where
  track := o.track
  epoch := o.epoch
  group := o.group
  object := o.object
  payload := o.payload
  status := o.status.getD .normal

end LiveMedia
