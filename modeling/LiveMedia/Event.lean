import LiveMedia.Chunk
import LiveMedia.Media
import LiveMedia.Json.Fields

/-! # Monitoring events and their JSON forms -/

namespace LiveMedia
set_option autoImplicit false

open Json

namespace CodecConfig

def fieldNames : List String :=
  ["codec", "width", "height", "bitrate", "framerate", "sampleRate", "channels"]

def toJson (c : CodecConfig) : Value :=
  .object
    [ ("codec", .text c.codec),
      ("width", .ofOption (fun n => .nat n.toNat) c.width),
      ("height", .ofOption (fun n => .nat n.toNat) c.height),
      ("bitrate", .nat c.bitrate.toNat),
      ("framerate", .float c.framerate),
      ("sampleRate", .ofOption (fun n => .nat n.toNat) c.sampleRate),
      ("channels", .ofOption (fun n => .nat n.toNat) c.channels) ]

def ofNode? (v : Node) : Option CodecConfig := do
  let r ← v.fields? fieldNames
  let codec ← r.required? 0 Node.string?
  let width ← r.optional? 1 Node.isNull (Node.nat? 32)
  let height ← r.optional? 2 Node.isNull (Node.nat? 32)
  let bitrate ← r.required? 3 (Node.nat? 64)
  let framerate ← r.required? 4 Node.float?
  let sampleRate ← r.optional? 5 Node.isNull (Node.nat? 32)
  let channels ← r.optional? 6 Node.isNull (Node.nat? 16)
  return {
    codec
    width := width.map Nat.toUInt32
    height := height.map Nat.toUInt32
    bitrate := bitrate.toUInt64
    framerate
    sampleRate := sampleRate.map Nat.toUInt32
    channels := channels.map Nat.toUInt16 }

end CodecConfig

inductive ConfigProblem where
  | unsupported
  | reconfigureFailed
deriving DecidableEq, Repr, Inhabited

namespace ConfigProblem

def name : ConfigProblem → String
  | unsupported => "unsupported"
  | reconfigureFailed => "reconfigure_failed"

def all : List ConfigProblem := [unsupported, reconfigureFailed]

theorem mem_all (p : ConfigProblem) : p ∈ all := by cases p <;> decide

end ConfigProblem

inductive Event where
  | bitrate (media : Media) (kbps : Float)
  | configError (media : Media) (problem : ConfigProblem) (config : CodecConfig)
deriving Inhabited

namespace Event

def media : Event → Media
  | bitrate media _ => media
  | configError media _ _ => media

def toJson : Event → Value
  | bitrate media kbps =>
    .object [("type", .text "bitrate"), ("media", .text media.name), ("kbps", .float kbps)]
  | configError media problem config =>
    .object
      [ ("type", .text "configError"),
        ("media", .text media.name),
        ("reason", .text problem.name),
        ("config", config.toJson) ]

/-- The whole text is read before its kind is known, so that all of it has to be valid. -/
def ofNode? (v : Node) : Option Event := do
  let _ ← v.toValue? Node.maxDepth
  let (kind, body) ← v.tagged? "type"
  if kind = "bitrate" then
    let r ← body.fields? ["media", "kbps"]
    let media ← r.required? 0 (Node.choice? true Media.all Media.name)
    let kbps ← r.required? 1 Node.float?
    return bitrate media kbps
  else if kind = "configError" then
    let r ← body.fields? ["media", "reason", "config"]
    let media ← r.required? 0 (Node.choice? true Media.all Media.name)
    let problem ← r.required? 1 (Node.choice? true ConfigProblem.all ConfigProblem.name)
    let config ← r.required? 2 CodecConfig.ofNode?
    return configError media problem config
  else none

def parse? (text : List UInt8) : Option Event := (Node.parse? text).bind ofNode?

end Event

end LiveMedia
