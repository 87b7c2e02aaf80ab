import LiveMedia.Simulator.Run

/-! # The program

Reads the settings file that the arguments name, runs the simulation and writes what it reports. -/

namespace LiveMedia.Simulator
set_option autoImplicit false

def lookUp (path : String) : IO SettingsFile := do
  match ← (IO.FS.readBinFile path).toBaseIO with
  | .ok bytes => return .content bytes
  | .error (.noFileOrDirectory ..) => return if path = "" then .unreachable else .absent
  | .error (.inappropriateType ..) => return .directory
  | .error _ => return .unreachable

def directoryOf (path : String) : String := "/".intercalate (path.splitOn "/").dropLast

def store (path : String) (before after : SettingsFile) : IO Unit := do
  match before, after with
  | .absent, .content bytes =>
    if directoryOf path ≠ "" then IO.FS.createDirAll (directoryOf path)
    IO.FS.writeBinFile path bytes
  | _, _ => return

def main (args : List String) : IO UInt32 := do
  let path? := match Invocation.ofArguments args with
    | .simulate o => o.config
    | _ => none
  let path := path?.getD ""
  let file ← if path?.isSome then lookUp path else pure .absent
  let report := execute args fun _ => file
  store path file report.file
  IO.print report.text
  (report.start ++ report.summary).forM fun line => IO.println (" INFO " ++ line)
  if report.complaint ≠ "" then IO.eprintln report.complaint
  return report.exitCode.toUInt32

end LiveMedia.Simulator

def main (args : List String) : IO UInt32 := LiveMedia.Simulator.main args
