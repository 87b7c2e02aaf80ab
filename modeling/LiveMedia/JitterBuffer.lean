/-! # Jitter buffer

Entries wait in the order of their slots until each has stayed for a least delay. Entries of one
slot keep the order of their arrival. When the buffer is full its first entry makes room, and an
entry before the slot released last comes too late. -/

namespace LiveMedia
set_option autoImplicit false

/-- A place in a stream: the group first, then the object in the group. -/
structure Slot where
  group : Nat
  object : Nat
deriving DecidableEq, Repr, Inhabited

namespace Slot

def before (a b : Slot) : Bool :=
  a.group < b.group || (a.group == b.group && a.object < b.object)

theorem before_iff (a b : Slot) :
    a.before b = true ↔ a.group < b.group ∨ a.group = b.group ∧ a.object < b.object := by
  simp [before]

end Slot

structure JitterEntry (α : Type) where
  slot : Slot
  enqueued : Nat
  payload : α
deriving Repr, DecidableEq

structure JitterBuffer (α : Type) where
  /-- In the order of their slots. -/
  entries : List (JitterEntry α)
  capacity : Nat
  minDelay : Nat
  released : Option Slot
  overflowDrops : Nat
  lateDrops : Nat

inductive PushOutcome (α : Type) where
  | buffered
  /-- The entry is in, and this one had to go. -/
  | evicted (entry : JitterEntry α)
  | late

namespace JitterBuffer

variable {α : Type}

/-- A buffer holds at least one entry. -/
def empty (capacity minDelay : Nat) : JitterBuffer α where
  entries := []
  capacity := max capacity 1
  minDelay := minDelay
  released := none
  overflowDrops := 0
  lateDrops := 0

def size (b : JitterBuffer α) : Nat := b.entries.length

def isEmpty (b : JitterBuffer α) : Bool := b.entries.isEmpty

def first? (b : JitterBuffer α) : Option (JitterEntry α) := b.entries.head?

/-- Puts an entry behind all whose slot is not later. -/
def place (e : JitterEntry α) : List (JitterEntry α) → List (JitterEntry α)
  | [] => [e]
  | x :: rest => if e.slot.before x.slot then e :: x :: rest else x :: place e rest

def isLate (b : JitterBuffer α) (s : Slot) : Bool :=
  match b.released with
  | some r => s.before r
  | none => false

def push (b : JitterBuffer α) (now : Nat) (slot : Slot) (payload : α) :
    PushOutcome α × JitterBuffer α :=
  if b.isLate slot then (.late, { b with lateDrops := b.lateDrops + 1 })
  else
    let entries := place ⟨slot, now, payload⟩ b.entries
    if b.capacity < entries.length then
      match entries with
      | [] => (.buffered, b)
      | oldest :: rest =>
        (.evicted oldest, { b with entries := rest, overflowDrops := b.overflowDrops + 1 })
    else (.buffered, { b with entries := entries })

/-- Releases the first entry if it has waited long enough. -/
def pop? (b : JitterBuffer α) (now : Nat) : Option (JitterEntry α × JitterBuffer α) :=
  match b.entries with
  | [] => none
  | e :: rest =>
    if now - e.enqueued < b.minDelay then none
    else some (e, { b with entries := rest, released := some e.slot })

def clear (b : JitterBuffer α) : JitterBuffer α := { b with entries := [], released := none }

@[simp] theorem length_place (e : JitterEntry α) (l : List (JitterEntry α)) :
    (place e l).length = l.length + 1 := by
  induction l with
  | nil => rfl
  | cons x rest ih => simp only [place]; split <;> simp [ih]

end JitterBuffer

end LiveMedia
