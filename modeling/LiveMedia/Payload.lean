import LiveMedia.Chunk
import LiveMedia.Fault
import LiveMedia.Json.Fields

/-! # Payloads

A payload is the length of the metadata text in four bytes, the most significant first, the text
itself, and the data of the chunk. -/

namespace LiveMedia
set_option autoImplicit false

open Json

namespace Metadata

def fieldNames : List String := ["type", "timestamp", "duration"]

def toJson (m : Metadata) : Value :=
  .object
    [ ("type", .text m.kind.name),
      ("timestamp", .int m.timestamp.toInt),
      ("duration", .ofOption (fun d => .nat d.toNat) m.duration) ]

def render (m : Metadata) : String := m.toJson.render

def ofNode? (v : Node) : Option Metadata := do
  let r ← v.fields? fieldNames
  let kind ← r.required? 0 (Node.choice? false ChunkKind.all ChunkKind.name)
  let timestamp ← r.required? 1 Node.int64?
  let duration ← r.defaulted? 2 (Node.nullable? (Node.nat? 64)) none
  return { kind, timestamp, duration := duration.map Nat.toUInt64 }

def parse? (text : List UInt8) : Option Metadata := (Node.parse? text).bind ofNode?

end Metadata

namespace Payload

def lengthBytes : Nat := 4

def encodeLength (n : Nat) : ByteArray :=
  ⟨#[(n / 2 ^ 24).toUInt8, (n / 2 ^ 16).toUInt8, (n / 2 ^ 8).toUInt8, n.toUInt8]⟩

def decodeLength (b : ByteArray) : Nat := b.data.foldl (fun n x => n * 256 + x.toNat) 0

/-- Any text and data behind the length of the text. -/
def frame (text data : ByteArray) : ByteArray := encodeLength text.size ++ text ++ data

@[simp] theorem size_encodeLength (n : Nat) : (encodeLength n).size = lengthBytes := rfl

end Payload

namespace Chunk

def pack (c : Chunk) : ByteArray := Payload.frame c.toMetadata.render.toUTF8 c.data

def unpack (payload : ByteArray) : Except WireFault Chunk :=
  if payload.size < Payload.lengthBytes then
    .error (.truncated Payload.lengthBytes payload.size)
  else
    let textEnd := Payload.lengthBytes +
      Payload.decodeLength (payload.extract 0 Payload.lengthBytes)
    if payload.size < textEnd then .error (.truncated textEnd payload.size)
    else
      match Metadata.parse? (payload.extract Payload.lengthBytes textEnd).data.toList with
      | none => .error .invalidMetadata
      | some m => .ok { m with data := payload.extract textEnd payload.size }

end Chunk

end LiveMedia
