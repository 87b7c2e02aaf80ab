import LiveMedia.Player.Basic
import LiveMedia.Publisher.Basic

/-! # Settings

What can be set for each medium, the defaults, and what codecs, publishers and players are told of
it. -/

namespace LiveMedia
set_option autoImplicit false

structure MediaSettings where
  codec : String
  width : Option UInt32
  height : Option UInt32
  sampleRate : Option UInt32
  channels : Option UInt16
  /-- Bits per second. -/
  bitrate : UInt64
  framerate : Float
  keyframeInterval : Nat
  /-- Milliseconds. -/
  jitterMinDelay : Nat
  jitterCapacity : Nat
  maxEncodeQueue : Nat
  /-- Milliseconds. -/
  playoutInterval : Nat
  trackAlias : Nat
deriving BEq, Inhabited

namespace MediaSettings

def defaultVideo : MediaSettings where
  codec := "avc1.42001f"
  width := some 1280
  height := some 720
  sampleRate := none
  channels := none
  bitrate := 2000000
  framerate := 30.0
  keyframeInterval := 60
  jitterMinDelay := 150
  jitterCapacity := 256
  maxEncodeQueue := 2
  playoutInterval := 10
  trackAlias := 1

def defaultAudio : MediaSettings where
  codec := "opus"
  width := none
  height := none
  sampleRate := some 48000
  channels := some 2
  bitrate := 64000
  framerate := 50.0
  keyframeInterval := 1
  jitterMinDelay := 60
  jitterCapacity := 128
  maxEncodeQueue := 8
  playoutInterval := 5
  trackAlias := 2

def codecConfig (s : MediaSettings) : CodecConfig where
  codec := s.codec
  width := s.width
  height := s.height
  bitrate := s.bitrate
  framerate := s.framerate
  sampleRate := s.sampleRate
  channels := s.channels

/-- Key frames are at least one frame apart. -/
def publishSettings (s : MediaSettings) (media : Media) : PublishSettings where
  media := media
  track := s.trackAlias
  keyframeInterval := max s.keyframeInterval 1
  maxQueue := s.maxEncodeQueue

/-- Ticks are at least a millisecond apart. -/
def playSettings (s : MediaSettings) (media : Media) : PlaySettings where
  media := media
  minDelay := s.jitterMinDelay * 1000
  capacity := s.jitterCapacity
  playoutInterval := max s.playoutInterval 1 * 1000

end MediaSettings

structure Settings where
  video : MediaSettings := .defaultVideo
  audio : MediaSettings := .defaultAudio
  logLevel : String := "info"
deriving BEq, Inhabited

def Settings.media (s : Settings) : Media → MediaSettings
  | .video => s.video
  | .audio => s.audio

end LiveMedia
