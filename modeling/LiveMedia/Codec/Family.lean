import LiveMedia.Source
import LiveMedia.Fault

/-! # Encoders and decoders

A family is all that its users know of a kind of codec: operations on instances, named by numbers,
over a state that the instances share. What an operation gives out comes back with it; what an
instance gives out later, without being asked, reaches its user by another way. -/

namespace LiveMedia
set_option autoImplicit false

inductive CodecState where
  | uninitialized
  | ready
  | closed
deriving DecidableEq, Repr, Inhabited

def CodecState.name : CodecState → String
  | uninitialized => "Uninitialized"
  | ready => "Ready"
  | closed => "Closed"

structure Picture where
  timestamp : Int64
  kind : ChunkKind
  size : Nat
deriving DecidableEq, Repr, Inhabited

/-- The end of an operation: its verdict, what was given out, and the state after it. -/
structure Reply (W α : Type) where
  verdict : Except CodecFault Unit
  emitted : List α
  codec : W

namespace Reply

variable {W α : Type}

def ok (codec : W) (emitted : List α := []) : Reply W α := ⟨.ok (), emitted, codec⟩

def fault (e : CodecFault) (codec : W) (emitted : List α := []) : Reply W α :=
  ⟨.error e, emitted, codec⟩

def succeeded (r : Reply W α) : Bool :=
  match r.verdict with
  | .ok _ => true
  | .error _ => false

end Reply

structure EncoderFamily (W : Type) where
  supports : W → CodecConfig → Bool
  create : CodecConfig → W → Except CodecFault Nat × W
  state : W → Nat → CodecState
  queueSize : W → Nat → Nat
  configure : CodecConfig → Nat → W → Reply W Chunk
  /-- The flag asks for a key chunk. -/
  encode : Frame → Bool → Nat → W → Reply W Chunk
  flush : Nat → W → Reply W Chunk

structure DecoderFamily (W : Type) where
  create : CodecConfig → W → Except CodecFault Nat × W
  state : W → Nat → CodecState
  configure : CodecConfig → Nat → W → Reply W Picture
  decode : Chunk → Nat → W → Reply W Picture

end LiveMedia
