import LiveMedia.Json.Fields
import LiveMedia.Settings.Basic
import LiveMedia.Toml.Document

/-! # Reading settings

Settings are a record of records in any text format. A medium that is missing has its defaults, but
one that is given has to be complete, save for what its kind may not have. -/

namespace LiveMedia
set_option autoImplicit false

namespace MediaSettings

def fieldNames : List String :=
  [ "codec", "width", "height", "sample_rate", "channels", "bitrate", "framerate",
    "keyframe_interval", "jitter_min_delay_ms", "jitter_capacity", "max_encode_queue",
    "playout_interval_ms", "track_alias" ]

def read? {V : Type} (format : Format V) (v : V) : Option MediaSettings := do
  let r ← format.fields? fieldNames v
  let optionalNat := fun bits i => r.optional? i format.isNull (format.nat? bits)
  let nat := fun i => r.required? i (format.nat? 64)
  return {
    codec := ← r.required? 0 format.string?
    width := (← optionalNat 32 1).map Nat.toUInt32
    height := (← optionalNat 32 2).map Nat.toUInt32
    sampleRate := (← optionalNat 32 3).map Nat.toUInt32
    channels := (← optionalNat 16 4).map Nat.toUInt16
    bitrate := (← nat 5).toUInt64
    framerate := ← r.required? 6 format.float?
    keyframeInterval := ← nat 7
    jitterMinDelay := ← nat 8
    jitterCapacity := ← nat 9
    maxEncodeQueue := ← nat 10
    playoutInterval := ← nat 11
    trackAlias := ← nat 12 }

end MediaSettings

namespace Settings

def readLogLevel? {V : Type} (format : Format V) (v : V) : Option String := do
  let r ← format.fields? ["level"] v
  r.required? 0 format.string?

def read? {V : Type} (format : Format V) (v : V) : Option Settings := do
  let r ← format.fields? ["video", "audio", "logging"] v
  return {
    video := ← r.defaulted? 0 (MediaSettings.read? format) .defaultVideo
    audio := ← r.defaulted? 1 (MediaSettings.read? format) .defaultAudio
    logLevel := ← r.defaulted? 2 (readLogLevel? format) "info" }

def parseJson? (text : List UInt8) : Option Settings :=
  (Json.Node.parse? text).bind (read? Json.Node.format)

def parseToml? (text : String) : Option Settings :=
  (Toml.parse? text).bind (read? Toml.Value.format)

end Settings

end LiveMedia
