import LiveMedia.Media

/-! # Causes of failure and their wording -/

namespace LiveMedia
set_option autoImplicit false

inductive CodecFault where
  | unsupported (codec : String)
  | rejected (reason : String)
  | closed
deriving DecidableEq, Repr, Inhabited

def CodecFault.message : CodecFault → String
  | unsupported codec => "Unsupported codec configuration: " ++ codec
  | rejected reason => "Codec rejected input: " ++ reason
  | closed => "Codec is closed"

inductive LinkFault where
  | sendFailed (reason : String)
  | closed
deriving DecidableEq, Repr, Inhabited

def LinkFault.message : LinkFault → String
  | sendFailed reason => "Send failed: " ++ reason
  | closed => "Transport closed"

inductive WireFault where
  | truncated (needed available : Nat)
  | invalidMetadata
  | invalidStatus (code : Nat)
deriving DecidableEq, Repr, Inhabited

/-- The wording, with `detail` saying what is wrong with the metadata. -/
def WireFault.message (detail : String) : WireFault → String
  | truncated needed available =>
    "Payload truncated: need " ++ toString needed ++ " bytes, got " ++ toString available
  | invalidMetadata => "Invalid chunk metadata: " ++ detail
  | invalidStatus code => "Invalid object status code: " ++ toString code

inductive SettingsFault where
  | unreadable
  | unparsable
  | unprintable
  | invalid (reason : String)
deriving DecidableEq, Repr, Inhabited

def SettingsFault.reason : SettingsFault → String
  | unreadable => "Failed to read config file"
  | unparsable => "Failed to parse config file"
  | unprintable => "Failed to serialize config"
  | invalid reason => reason

inductive Failure where
  | configurationUnsupported (media : Media) (codec : String)
  | reconfigureFailed (media : Media) (cause : CodecFault)
  | settings (cause : SettingsFault)
  | workerGone (media : Media)
  | io (reason : String)
deriving DecidableEq, Repr, Inhabited

def Failure.message : Failure → String
  | configurationUnsupported media codec =>
    "Unsupported " ++ media.name ++ " configuration: " ++ codec
  | reconfigureFailed media cause =>
    "Reconfiguration of " ++ media.name ++ " encoder failed: " ++ cause.message
  | settings cause => "Configuration error: " ++ cause.reason
  | workerGone media => media.name ++ " worker is gone"
  | io reason => "IO error: " ++ reason

end LiveMedia
