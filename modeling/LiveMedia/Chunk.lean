import LiveMedia.Builtin

/-! # Encoded chunks

A chunk is one coded frame. Its metadata travels as text in front of its data; times are counted in
microseconds. -/

namespace LiveMedia
set_option autoImplicit false

/-- A key chunk decodes on its own, a delta chunk needs the chunks before it. -/
inductive ChunkKind where
  | key
  | delta
deriving DecidableEq, Repr, Inhabited

namespace ChunkKind

def name : ChunkKind → String
  | key => "key"
  | delta => "delta"

def all : List ChunkKind := [key, delta]

theorem mem_all (k : ChunkKind) : k ∈ all := by cases k <;> decide

end ChunkKind

structure Metadata where
  kind : ChunkKind
  timestamp : Int64
  duration : Option UInt64
deriving DecidableEq, Inhabited

structure Chunk extends Metadata where
  data : ByteArray
deriving DecidableEq, Inhabited

namespace Chunk

def isKey (c : Chunk) : Bool := c.kind == .key

@[simp] theorem isKey_iff (c : Chunk) : c.isKey = true ↔ c.kind = .key := by
  cases h : c.kind <;> simp [isKey, h]

/-- The same chunk on a time line that starts at `origin`. -/
def rebased (c : Chunk) (origin : Int64) : Chunk :=
  { c with timestamp := c.timestamp - origin }

@[simp] theorem rebased_timestamp (c : Chunk) (origin : Int64) :
    (c.rebased origin).timestamp = c.timestamp - origin := rfl

end Chunk

/-- What an encoder or decoder is asked to handle. -/
structure CodecConfig where
  codec : String
  width : Option UInt32 := none
  height : Option UInt32 := none
  /-- Target rate in bits per second. -/
  bitrate : UInt64
  framerate : Float
  sampleRate : Option UInt32 := none
  channels : Option UInt16 := none
deriving BEq, Inhabited

end LiveMedia
