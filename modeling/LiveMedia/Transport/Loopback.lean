import LiveMedia.Fault
import LiveMedia.Publisher.Basic
import LiveMedia.Transport.Channel

/-! # Loopback transport

Objects that are sent come out at the other end of a bounded channel. A transport that reorders
holds an object back now and then, as chance has it, and delivers it behind the next. -/

namespace LiveMedia
set_option autoImplicit false

structure Loopback where
  channel : Channel Received
  /-- For each object in turn, whether it is to change places with the next. -/
  swaps : Nat → Bool
  /-- How many objects have had their turn. -/
  drawn : Nat
  held : Option Received

/-- A call on its way: an object that is not yet on the channel, and whether the object held back
goes after it. A call that is dropped here takes its object with it. -/
structure Delivery where
  object : Received
  heldFollows : Bool
deriving DecidableEq

inductive Progress where
  | done (result : Except LinkFault Unit)
  | going (d : Delivery)
  | blocked (d : Delivery)

namespace Loopback

/-- Neighbours change places with this probability. It is left to `chance` only strictly between
zero and one; where it is not a number, none change places. -/
def make (capacity : Nat) (reorderProbability : Float) (chance : Nat → Bool := fun _ => true) :
    Loopback where
  channel := .empty (max capacity 1)
  swaps n := reorderProbability > 0.0 && (reorderProbability ≥ 1.0 || chance n)
  drawn := 0
  held := none

/-- Whether the next object is to be held back if no other is. -/
def swapsNext (l : Loopback) : Bool := l.swaps l.drawn

def draw (l : Loopback) : Loopback := { l with drawn := l.drawn + 1 }

@[simp] theorem channel_draw (l : Loopback) : l.draw.channel = l.channel := rfl

@[simp] theorem held_draw (l : Loopback) : l.draw.held = l.held := rfl

/-- Takes what is held back and goes on with it. -/
def releaseHeld (l : Loopback) : Progress × Loopback :=
  match l.held with
  | none => (.done (.ok ()), l)
  | some h => (.going ⟨h, false⟩, { l with held := none })

def start (l : Loopback) : Transmission → Progress × Loopback
  | .header _ => (.done (if l.channel.isOpen then .ok () else .error .closed), l)
  | .object o =>
    if l.swapsNext && l.held.isNone then (.done (.ok ()), { l.draw with held := some o.received })
    else (.going ⟨o.received, true⟩, l.draw)
  | .flush => l.releaseHeld

/-- All that the start of a call can do on an open channel. -/
inductive Begins (l : Loopback) : Transmission → Progress × Loopback → Prop where
  | header (g : GroupHeader) : Begins l (.header g) (.done (.ok ()), l)
  | hold (o : Outgoing) (swaps : l.swapsNext = true) (empty : l.held = none) :
      Begins l (.object o) (.done (.ok ()), { l.draw with held := some o.received })
  | pass (o : Outgoing) (passes : l.swapsNext = true → l.held ≠ none) :
      Begins l (.object o) (.going ⟨o.received, true⟩, l.draw)
  | flushNothing (empty : l.held = none) : Begins l .flush (.done (.ok ()), l)
  | flush {h : Received} (full : l.held = some h) :
      Begins l .flush (.going ⟨h, false⟩, { l with held := none })

theorem begins_start {l : Loopback} (hopen : l.channel.isOpen = true) (t : Transmission) :
    l.Begins t (l.start t) := by
  cases t with
  | header g =>
    rw [start, if_pos hopen]
    exact .header g
  | object o =>
    rw [start]
    by_cases hold : (l.swapsNext && l.held.isNone) = true
    · obtain ⟨hswaps, hempty⟩ := Bool.and_eq_true_iff.mp hold
      rw [if_pos hold]
      exact .hold o hswaps (Option.isNone_iff_eq_none.mp hempty)
    · rw [if_neg hold]
      refine .pass o fun hswaps hempty => hold ?_
      rw [hswaps, hempty]
      rfl
  | flush =>
    rw [start, releaseHeld]
    cases hheld : l.held with
    | none => exact .flushNothing hheld
    | some h => exact .flush hheld

def step (l : Loopback) (who : Nat) (d : Delivery) : Progress × Loopback :=
  match l.channel.offer who d.object with
  | .refused => (.done (.error .closed), l)
  | .waiting c => (.blocked d, { l with channel := c })
  | .taken c =>
    let l := { l with channel := c }
    if d.heldFollows then l.releaseHeld else (.done (.ok ()), l)

/-- Takes a call as far as it goes: to its end or to a place where it has to wait. A call delivers
at most two objects. -/
def run (who : Nat) : Progress × Loopback → Progress × Loopback
  | (.going d, l) =>
    match l.step who d with
    | (.going e, l) => l.step who e
    | other => other
  | other => other

def send (l : Loopback) (who : Nat) (t : Transmission) : Progress × Loopback :=
  run who (l.start t)

def resume (l : Loopback) (who : Nat) (d : Delivery) : Progress × Loopback :=
  run who (.going d, l)

end Loopback

end LiveMedia
