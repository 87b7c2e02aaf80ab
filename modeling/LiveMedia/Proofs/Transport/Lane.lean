import Mathlib.Data.Nat.Notation
import Mathlib.Logic.Function.Basic
import LiveMedia.Transport.Carrier

/-!
# A loopback transport between two actions

A call on a loopback transport is more than one action: an object is held back or not, it is put on
the channel, and then the one held back is taken and put behind it. Between any two of these the
other users of the transport may go on.
-/

namespace LiveMedia
set_option autoImplicit false

namespace Channel

variable {α : Type}

/-- A sender puts its item into the queue and needs no place any more. -/
def put (c : Channel α) (who : ℕ) (a : α) : Channel α :=
  { c with queue := c.queue ++ [a], line := c.line.erase who }

def standIn (c : Channel α) (who : ℕ) : Channel α :=
  { c with line := if c.line.contains who then c.line else c.line ++ [who] }

/-- Nothing is refused on an open channel. -/
theorem offer_of_isOpen {c : Channel α} (h : c.isOpen = true) (who : ℕ) (a : α) :
    c.offer who a =
      if c.ahead who < c.free then .taken (c.put who a) else .waiting (c.standIn who) := by
  unfold offer
  rw [if_neg (by rw [h]; decide)]
  rfl

end Channel

/-- A transport between the actions of its users. -/
structure Lane where
  loopback : Loopback
  /-- Users whose object is on the channel and who have yet to look for the one held back. -/
  resting : ℕ → Bool

namespace Lane

/-- The first action of a call. -/
def start (l : Lane) (t : Transmission) : Progress × Lane :=
  let (progress, loopback) := l.loopback.start t
  (progress, { l with loopback := loopback })

/-- The next action of a call: an object is put on the channel, or the one held back is taken. -/
def advance (l : Lane) (who : ℕ) (d : Delivery) : Progress × Lane :=
  if l.resting who then
    let (progress, loopback) := l.loopback.releaseHeld
    (progress, ⟨loopback, Function.update l.resting who false⟩)
  else
    match l.loopback.channel.offer who d.object with
    | .refused => (.done (.error .closed), l)
    | .waiting c => (.blocked d, { l with loopback := { l.loopback with channel := c } })
    | .taken c =>
      let loopback := { l.loopback with channel := c }
      if d.heldFollows then (.going d, ⟨loopback, Function.update l.resting who true⟩)
      else (.done (.ok ()), { l with loopback := loopback })

def carrier : Carrier Lane where
  send _ t l := l.start t
  resume who d l := l.advance who d
  canResume _ _ := true

def mapChannel (f : Channel Received → Channel Received) (l : Lane) : Lane :=
  { l with loopback := { l.loopback with channel := f l.loopback.channel } }

/-- All that an action of a call can do on an open channel. -/
theorem advance_cases {l : Lane} (hopen : l.loopback.channel.isOpen = true) (who : ℕ)
    (d : Delivery) :
    (l.resting who = true ∧ l.loopback.held = none ∧
      l.advance who d = (.done (.ok ()), ⟨l.loopback, Function.update l.resting who false⟩)) ∨
    (∃ h, l.resting who = true ∧ l.loopback.held = some h ∧ l.advance who d =
      (.going ⟨h, false⟩,
        ⟨{ l.loopback with held := none }, Function.update l.resting who false⟩)) ∨
    (l.resting who = false ∧ l.loopback.channel.free ≤ l.loopback.channel.ahead who ∧
      l.advance who d = (.blocked d, l.mapChannel (·.standIn who))) ∨
    (l.resting who = false ∧ l.loopback.channel.ahead who < l.loopback.channel.free ∧
      (d.heldFollows = true ∧ l.advance who d = (.going d,
        { l.mapChannel (·.put who d.object) with resting := Function.update l.resting who true }) ∨
      d.heldFollows = false ∧
        l.advance who d = (.done (.ok ()), l.mapChannel (·.put who d.object)))) := by
  unfold advance
  cases hrest : l.resting who with
  | true =>
    rw [if_pos rfl]
    unfold Loopback.releaseHeld
    cases hheld : l.loopback.held with
    | none => exact Or.inl ⟨rfl, rfl, rfl⟩
    | some h => exact Or.inr (Or.inl ⟨h, rfl, rfl, rfl⟩)
  | false =>
    rw [if_neg Bool.false_ne_true, Channel.offer_of_isOpen hopen]
    refine Or.inr (Or.inr ?_)
    by_cases hroom : l.loopback.channel.ahead who < l.loopback.channel.free
    · rw [if_pos hroom]
      cases hfollows : d.heldFollows with
      | true => exact Or.inr ⟨rfl, hroom, Or.inl ⟨rfl, rfl⟩⟩
      | false => exact Or.inr ⟨rfl, hroom, Or.inr ⟨rfl, rfl⟩⟩
    · rw [if_neg hroom]
      exact Or.inl ⟨rfl, Nat.not_lt.mp hroom, rfl⟩

end Lane

end LiveMedia
