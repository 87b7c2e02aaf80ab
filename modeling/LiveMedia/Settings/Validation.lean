import LiveMedia.Settings.Basic

/-! # Settings that can be worked with

Every medium needs a codec name, video needs dimensions, and rates, intervals and capacities must
not be zero. The two media must not share a track. -/

namespace LiveMedia
set_option autoImplicit false

inductive MediaDefect where
  | emptyCodec
  | missingDimensions
  | noFrameRate
  | noKeyframeInterval
  | noJitterCapacity
  | noEncodeQueue
  | noPlayoutInterval
deriving DecidableEq, Repr

def MediaDefect.message (media : Media) : MediaDefect → String
  | emptyCodec => media.name ++ " codec cannot be empty"
  | missingDimensions => "Video dimensions must be set"
  | noFrameRate => media.name ++ " frame rate must be greater than 0"
  | noKeyframeInterval => media.name ++ " keyframe interval must be greater than 0"
  | noJitterCapacity => media.name ++ " jitter buffer capacity must be greater than 0"
  | noEncodeQueue => media.name ++ " encode queue threshold must be greater than 0"
  | noPlayoutInterval => media.name ++ " playout interval must be greater than 0"

inductive SettingsDefect where
  | medium (media : Media) (defect : MediaDefect)
  | sharedTrack
deriving DecidableEq, Repr

def SettingsDefect.message : SettingsDefect → String
  | medium media defect => defect.message media
  | sharedTrack => "Video and audio track aliases must differ"

/-- The first defect in the order of the cases. A frame rate that is not a number passes. -/
def MediaSettings.defect? (s : MediaSettings) (media : Media) : Option MediaDefect :=
  if s.codec = "" then some .emptyCodec
  else if media = .video ∧ (s.width = none ∨ s.height = none) then some .missingDimensions
  else if s.framerate ≤ 0 then some .noFrameRate
  else if s.keyframeInterval = 0 then some .noKeyframeInterval
  else if s.jitterCapacity = 0 then some .noJitterCapacity
  else if s.maxEncodeQueue = 0 then some .noEncodeQueue
  else if s.playoutInterval = 0 then some .noPlayoutInterval
  else none

/-- Video is looked at before audio. -/
def Settings.defect? (s : Settings) : Option SettingsDefect :=
  match s.video.defect? .video, s.audio.defect? .audio with
  | some defect, _ => some (.medium .video defect)
  | none, some defect => some (.medium .audio defect)
  | none, none => if s.video.trackAlias = s.audio.trackAlias then some .sharedTrack else none

def Settings.validate (s : Settings) : Except Failure Unit :=
  match s.defect? with
  | some defect => .error (.settings (.invalid defect.message))
  | none => .ok ()

end LiveMedia
