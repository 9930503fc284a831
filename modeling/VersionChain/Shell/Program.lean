import VersionChain.Shell.Session

/-!
# The program

The program reads its settings from variables, greets, and runs a session on its standard
input. It fails if the settings are wrong or if a line of the input is not valid UTF-8.
-/

namespace VersionChain.Shell

/-- What the program left behind. -/
structure Exit where
  code : Nat
  output : String
  /-- What was written about a failure. -/
  errors : String
  deriving DecidableEq, Repr

/-- The greeting, with the most important settings. -/
def greeting (settings : SessionSettings) : String :=
  s!"DeltaChain started (depth={settings.table.depth}, " ++
    s!"keyframe_every={settings.table.keyframeEvery}, " ++
    s!"encode_threads={settings.service.threads})\n" ++
  "Commands: INSERT group value | GET group seq | LATEST group | HISTORY group\n" ++
  "          LOAD path | TRUNCATE | STATS | EXIT\n"

/-- The line about a failure. -/
def complaint (reason : String) : String := s!"Error: {reason}\n"

/-- The greeting and the session with which the program starts. -/
def start (vars : Variables) : Except SettingsError (String × Session) := do
  let settings ← SessionSettings.ofVariables vars
  let session ← Session.new settings
  return (greeting settings, session)

/-- Runs the program. -/
def runProgram (vars : Variables) (files : Files) (input : Bytes) : Exit :=
  match start vars with
  | .error cause => ⟨1, "", complaint cause.message⟩
  | .ok (greeting, session) =>
    let (transcript, _) := session.run files input
    let output := greeting ++ transcript.output
    if transcript.unreadable then ⟨1, output, complaint FileError.notText.message⟩
    else ⟨0, output, ""⟩

end VersionChain.Shell
