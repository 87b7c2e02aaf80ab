import LiveMedia.Json.Value
import LiveMedia.Settings.Basic
import LiveMedia.Toml.Printer

/-! # Writing settings

In JSON what is not set is null, in a settings file it is left out. -/

namespace LiveMedia
set_option autoImplicit false

namespace MediaSettings

open Json in
def toJson (s : MediaSettings) : Value :=
  .object
    [ ("codec", .text s.codec),
      ("width", .ofOption (fun n => .nat n.toNat) s.width),
      ("height", .ofOption (fun n => .nat n.toNat) s.height),
      ("sample_rate", .ofOption (fun n => .nat n.toNat) s.sampleRate),
      ("channels", .ofOption (fun n => .nat n.toNat) s.channels),
      ("bitrate", .nat s.bitrate.toNat),
      ("framerate", .float s.framerate),
      ("keyframe_interval", .nat s.keyframeInterval),
      ("jitter_min_delay_ms", .nat s.jitterMinDelay),
      ("jitter_capacity", .nat s.jitterCapacity),
      ("max_encode_queue", .nat s.maxEncodeQueue),
      ("playout_interval_ms", .nat s.playoutInterval),
      ("track_alias", .nat s.trackAlias) ]

def line (key value : String) : String := key ++ " = " ++ value ++ "\n"

def natLine? (key : String) (n : Nat) : Option String := (Toml.Printer.nat? n).map (line key)

def optionalLine (key : String) (n : Option Nat) : String :=
  match n with
  | none => ""
  | some n => line key (toString n)

def toToml? (s : MediaSettings) : Option String := do
  let bitrate ← natLine? "bitrate" s.bitrate.toNat
  let keyframeInterval ← natLine? "keyframe_interval" s.keyframeInterval
  let jitterMinDelay ← natLine? "jitter_min_delay_ms" s.jitterMinDelay
  let jitterCapacity ← natLine? "jitter_capacity" s.jitterCapacity
  let maxEncodeQueue ← natLine? "max_encode_queue" s.maxEncodeQueue
  let playoutInterval ← natLine? "playout_interval_ms" s.playoutInterval
  let trackAlias ← natLine? "track_alias" s.trackAlias
  return line "codec" (Toml.Printer.string s.codec)
    ++ optionalLine "width" (s.width.map UInt32.toNat)
    ++ optionalLine "height" (s.height.map UInt32.toNat)
    ++ optionalLine "sample_rate" (s.sampleRate.map UInt32.toNat)
    ++ optionalLine "channels" (s.channels.map UInt16.toNat)
    ++ bitrate ++ line "framerate" (Toml.Printer.float s.framerate)
    ++ keyframeInterval ++ jitterMinDelay ++ jitterCapacity ++ maxEncodeQueue
    ++ playoutInterval ++ trackAlias

end MediaSettings

namespace Settings

def toJson (s : Settings) : Json.Value :=
  .object
    [ ("video", s.video.toJson), ("audio", s.audio.toJson),
      ("logging", .object [("level", .text s.logLevel)]) ]

def toToml? (s : Settings) : Option String := do
  let video ← s.video.toToml?
  let audio ← s.audio.toToml?
  return "[video]\n" ++ video ++ "\n[audio]\n" ++ audio ++ "\n[logging]\n"
    ++ MediaSettings.line "level" (Toml.Printer.string s.logLevel)

end Settings

end LiveMedia
