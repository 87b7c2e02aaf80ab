/-! # Bounded channels

A queue for one receiver with room for a fixed number of items. Senders that find it full stand in
line, and each place that becomes free belongs to the one who came first. -/

namespace LiveMedia
set_option autoImplicit false

structure Channel (α : Type) where
  capacity : Nat
  queue : List α
  /-- Senders that wait for a place, in the order in which they came. -/
  line : List Nat
  isOpen : Bool
deriving Repr

inductive Offer (α : Type) where
  | taken (c : Channel α)
  | waiting (c : Channel α)
  | refused

namespace Channel

variable {α : Type}

def empty (capacity : Nat) : Channel α := ⟨capacity, [], [], true⟩

def free (c : Channel α) : Nat := c.capacity - c.queue.length

/-- Senders in line before `who`; all of them if it does not stand in line. -/
def ahead (c : Channel α) (who : Nat) : Nat := (c.line.takeWhile (· != who)).length

/-- A sender tries to put an item into the queue, and stands in line where it cannot. -/
def offer (c : Channel α) (who : Nat) (a : α) : Offer α :=
  if !c.isOpen then .refused
  else if c.ahead who < c.free then
    .taken { c with queue := c.queue ++ [a], line := c.line.erase who }
  else .waiting { c with line := if c.line.contains who then c.line else c.line ++ [who] }

def accepts (c : Channel α) (who : Nat) : Bool := !c.isOpen || c.ahead who < c.free

def leave (c : Channel α) (who : Nat) : Channel α := { c with line := c.line.erase who }

def take? (c : Channel α) : Option (α × Channel α) :=
  match c.queue with
  | [] => none
  | a :: rest => some (a, { c with queue := rest })

/-- The receiver goes, and with it what is in the queue. -/
def close (c : Channel α) : Channel α := { c with queue := [], line := [], isOpen := false }

end Channel

end LiveMedia
