import LiveMedia.Transport.Channel

/-! # Mailboxes of workers

A mailbox is a bounded channel that is over when it is empty and its last sender has gone. -/

namespace LiveMedia
set_option autoImplicit false

structure Mailbox (α : Type) where
  channel : Channel α
  senders : Nat

namespace Mailbox

variable {α : Type}

def defaultCapacity : Nat := 64

/-- The number of the owner of a worker among those who stand in line. -/
def ownerSeat : Nat := 0

def empty (senders : Nat) (capacity : Nat := defaultCapacity) : Mailbox α :=
  ⟨.empty capacity, senders⟩

def isOver (m : Mailbox α) : Bool := m.senders == 0 && m.channel.queue.isEmpty

/-- Whether looking into it gives a message or the news that it is over. -/
def hasNews (m : Mailbox α) : Bool := m.senders == 0 || !m.channel.queue.isEmpty

def take? (m : Mailbox α) : Option (α × Mailbox α) :=
  m.channel.take?.map fun (a, channel) => (a, { m with channel := channel })

def join (m : Mailbox α) : Mailbox α := { m with senders := m.senders + 1 }

def leave (m : Mailbox α) : Mailbox α := { m with senders := m.senders - 1 }

def close (m : Mailbox α) : Mailbox α := { m with channel := m.channel.close }

/-- Whether the one who owns the worker can post without waiting. -/
def accepts (m : Mailbox α) : Bool := m.channel.accepts ownerSeat

/-- The owner posts a message. Nothing if the receiver has gone or there is no place. -/
def post (a : α) (m : Mailbox α) : Option (Mailbox α) :=
  match m.channel.offer ownerSeat a with
  | .taken channel => some { m with channel := channel }
  | _ => none

end Mailbox

inductive WorkerEnd where
  | stopped
  | failed
deriving DecidableEq, Repr

end LiveMedia
