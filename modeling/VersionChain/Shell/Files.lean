import VersionChain.Text.Utf8

/-!
# Files

Rows can be loaded from files. How a file is found is left to the place where the shell
runs: it is given as a function from paths to contents.
-/

namespace VersionChain.Shell

/-- Why a file cannot be read as text. -/
inductive FileError where
  /-- The path has a character that ends names. -/
  | brokenPath
  /-- The system refused, for a reason with a number. -/
  | refused (reason : String) (code : Nat)
  /-- The content is not valid UTF-8. -/
  | notText
  deriving DecidableEq, Repr

namespace FileError

/-- There is no such file. -/
def missing : FileError := refused "No such file or directory" 2

/-- A path goes on behind a file. -/
def notDirectory : FileError := refused "Not a directory" 20

/-- A path leads to a directory. -/
def isDirectory : FileError := refused "Is a directory" 21

/-- A name, or a path as a whole, is too long. -/
def tooLong : FileError := refused "File name too long" 36

/-- Wording of a file error. -/
def message : FileError → String
  | brokenPath => "file name contained an unexpected NUL byte"
  | refused reason code => s!"{reason} (os error {code})"
  | notText => "stream did not contain valid UTF-8"

end FileError

/-- The contents of the files at hand. -/
abbrev Files := String → Except FileError Bytes

/-- The text of a file. -/
def Files.text (files : Files) (path : String) : Except FileError String := do
  if path.toList.contains '\x00' then throw .brokenPath
  let content ← files path
  match Text.decode? content with
  | some text => return text
  | none => throw .notText

end VersionChain.Shell
