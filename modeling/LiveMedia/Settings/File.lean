import LiveMedia.Settings.Reading
import LiveMedia.Settings.Validation
import LiveMedia.Settings.Writing

/-! # Settings files

A file that is not there is made with the defaults. What is read has to be valid, what is written
need not be. -/

namespace LiveMedia
set_option autoImplicit false

inductive SettingsFile where
  | absent
  | content (bytes : ByteArray)
  | directory
  /-- The path leads through something that is no directory, or is no path at all. -/
  | unreachable
deriving DecidableEq

namespace SettingsFile

/-- Directories that lead to the file are made too. -/
def save (s : Settings) (file : SettingsFile) : Except Failure Unit × SettingsFile :=
  match s.toToml? with
  | none => (.error (.settings .unprintable), file)
  | some text =>
    match file with
    | .absent | .content _ => (.ok (), .content text.toUTF8)
    | .directory => (.error (.io "Is a directory"), file)
    | .unreachable => (.error (.io "Not a directory"), file)

def read (bytes : ByteArray) : Except Failure Settings :=
  match String.fromUTF8? bytes with
  | none => .error (.settings .unreadable)
  | some text =>
    match Settings.parseToml? text with
    | none => .error (.settings .unparsable)
    | some s => s.validate.map fun _ => s

def load (file : SettingsFile) : Except Failure Settings × SettingsFile :=
  match file with
  | .content bytes => (read bytes, file)
  | .directory => (.error (.settings .unreadable), file)
  | .absent | .unreachable =>
    match file.save {} with
    | (.ok _, file) => (.ok {}, file)
    | (.error e, file) => (.error e, file)

end SettingsFile

end LiveMedia
