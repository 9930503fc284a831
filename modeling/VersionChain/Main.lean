import VersionChain.Shell.Program

/-!
# Command line

The interactive shell on standard input and output, with settings from the environment.
-/

namespace VersionChain.Shell

/-- The names of all variables that settings are read from. -/
def variableNames : List String :=
  ["DELTACHAIN_DEPTH", "DELTACHAIN_KEYFRAME_EVERY", "DELTACHAIN_EXTRA_PASS",
    "DELTACHAIN_SEQ_CACHE_MB", "DELTACHAIN_LOCATION_CACHE_MB", "DELTACHAIN_CONTENT_CACHE_MB",
    "DELTACHAIN_CONTENT_MAX_ENTRY", "DELTACHAIN_STAGING_SLOTS", "DELTACHAIN_ENCODE_THREADS"]

/-- The variables of the environment. -/
def environment : IO Variables := do
  let entries ← variableNames.filterMapM fun name => do
    return (← IO.getEnv name).map (name, ·)
  return fun name => entries.lookup name

/-- A refusal by the system. Its number may come with the opposite sign, and its reason
without a capital or in other words. -/
def refusal (code : UInt32) (reason : String) : FileError :=
  let code := (if code < 0x80000000 then code else 0 - code).toNat
  if code = 36 then .tooLong else .refused reason.capitalize code

/-- The reason for a failed access to a file. -/
def fileError : IO.Error → FileError
  | .noFileOrDirectory _ code reason => refusal code reason
  | .inappropriateType _ code reason => refusal code reason
  | .permissionDenied _ code reason => refusal code reason
  | .invalidArgument _ code reason => refusal code reason
  | .otherError code reason => refusal code reason
  | error => refusal 0 (toString error)

/-- The files that a command needs. -/
def filesFor : Command → IO Files
  | .load path => do
    try
      let content ← IO.FS.readBinFile path
      return fun _ => .ok content.data
    catch error => return fun _ => .error (fileError error)
  | _ => return fun _ => .error .missing

/-- The bytes up to the next line end; `none` at the end of the input. -/
partial def readLine (input : IO.FS.Stream) (line : Array UInt8) : IO (Option (List UInt8)) := do
  let bytes ← input.read 1
  match bytes.data[0]? with
  | none => return if line.isEmpty then none else some line.toList
  | some byte =>
    if byte = UInt8.ofNat '\n'.toNat then return some line.toList
    else readLine input (line.push byte)

/-- Prompts for commands and carries them out. Gives the exit code. -/
partial def interact (input output : IO.FS.Stream) (session : Session) : IO UInt32 := do
  output.putStr prompt
  output.flush
  match ← readLine input #[] with
  | none => return 0
  | some line =>
    match Command.ofBytes? line with
    | none =>
      IO.eprint (complaint FileError.notText.message)
      return 1
    | some command =>
      let (reply, session) := session.execute (← filesFor command) command
      output.putStr reply.text
      output.flush
      if reply = .farewell then return 0 else interact input output session

end VersionChain.Shell

open VersionChain.Shell in
def main : IO UInt32 := do
  match start (← environment) with
  | .error cause =>
    IO.eprint (complaint cause.message)
    return 1
  | .ok (greeting, session) =>
    let output ← IO.getStdout
    output.putStr greeting
    interact (← IO.getStdin) output session
