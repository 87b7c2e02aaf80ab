import LiveMedia.RecencyMap

/-! # Frames on their way through an encoder

A bounded table from the time stamp of a frame to the moment it was captured. When it is full the
time stamp recorded longest ago makes room. -/

namespace LiveMedia
set_option autoImplicit false

/-- A table of captures that is kept in a map of this type. -/
structure CaptureTable (M : Type) where
  entries : M
  evicted : Nat
deriving Repr

namespace CaptureTable

variable {M : Type} [RecencyMap M Int64 Nat]

/-- A table holds at least one record. -/
def withCapacity (capacity : Nat) : CaptureTable M :=
  ⟨RecencyMap.withCapacity (max capacity 1), 0⟩

def size (p : CaptureTable M) : Nat := RecencyMap.size p.entries

/-- A time stamp recorded again takes the new moment and counts as the latest. Only a pair of
another time stamp has been evicted by it. -/
def record (p : CaptureTable M) (timestamp : Int64) (moment : Nat) : CaptureTable M :=
  match RecencyMap.push p.entries timestamp moment with
  | (none, entries) => { p with entries }
  | (some (replaced, _), entries) =>
    { entries, evicted := if replaced = timestamp then p.evicted else p.evicted + 1 }

def take (p : CaptureTable M) (timestamp : Int64) : Option Nat × CaptureTable M :=
  let (moment, entries) := RecencyMap.pop p.entries timestamp
  (moment, { p with entries })

def clear (p : CaptureTable M) : CaptureTable M := { p with entries := RecencyMap.clear p.entries }

end CaptureTable

abbrev PendingCaptures := CaptureTable (RecencyList Int64 Nat)

namespace PendingCaptures

def defaultCapacity : Nat := 1024

def empty (capacity : Nat := defaultCapacity) : PendingCaptures := .withCapacity capacity

end PendingCaptures

end LiveMedia
