import VersionChain.Shell.Files

/-!
# Directories

A path is a list of names with slashes between them. It is walked name by name, from the
root if it starts with a slash and from the working directory otherwise.

* An empty name and `.` stay where they are, and `..` goes up; the root is above itself.
* Nothing goes on behind a file, not even an empty name.
* A name has a length limit, which counts only where the name is looked up. A path as a
  whole has one too, which counts before anything is looked up.

The working directory holds the files at hand and lies in the directory for temporary files.
Outside of it, only those directories are known that every system has, and the empty device.
-/

namespace VersionChain.Shell

/-- A directory. -/
inductive Directory where
  /-- The working directory, with the files at hand. -/
  | working
  /-- The directory that names lead to from the root. -/
  | standard (names : List String)
  deriving DecidableEq, Repr

/-- What a path can lead to. -/
inductive Node where
  | file (content : Bytes)
  | directory (directory : Directory)
  deriving DecidableEq, Repr

/-- The names that lead from the root to the directories that every system has. -/
def standardDirectories : List (List String) := [
  ["boot"], ["dev"], ["dev", "pts"], ["dev", "shm"], ["etc"], ["home"], ["media"], ["mnt"],
  ["opt"], ["proc"], ["proc", "self"], ["proc", "sys"], ["root"], ["run"], ["run", "lock"],
  ["srv"], ["sys"], ["sys", "block"], ["sys", "bus"], ["sys", "class"], ["sys", "devices"],
  ["sys", "fs"], ["sys", "kernel"], ["tmp"], ["usr"], ["usr", "bin"], ["usr", "games"],
  ["usr", "include"], ["usr", "lib"], ["usr", "lib64"], ["usr", "libexec"], ["usr", "local"],
  ["usr", "local", "bin"], ["usr", "local", "etc"], ["usr", "local", "games"],
  ["usr", "local", "include"], ["usr", "local", "lib"], ["usr", "local", "sbin"],
  ["usr", "local", "share"], ["usr", "local", "src"], ["usr", "sbin"], ["usr", "share"],
  ["usr", "src"], ["var"], ["var", "cache"], ["var", "lib"], ["var", "local"], ["var", "log"],
  ["var", "mail"], ["var", "opt"], ["var", "spool"], ["var", "tmp"]]

/-- Names that stand for a directory elsewhere. -/
def links : List (List String × List String) := [
  (["bin"], ["usr", "bin"]), (["lib"], ["usr", "lib"]), (["lib64"], ["usr", "lib64"]),
  (["sbin"], ["usr", "sbin"]), (["var", "lock"], ["run", "lock"]), (["var", "run"], ["run"])]

/-- The names of the device that holds nothing. -/
def emptyDevice : List String := ["dev", "null"]

/-- Largest size of a name in bytes. -/
def nameLimit : Nat := 255

/-- Largest size of a path in bytes. -/
def pathLimit : Nat := 4095

namespace Directory

/-- The directory where absolute paths start. -/
def root : Directory := standard []

/-- The directory above. -/
def parent : Directory → Directory
  | working => standard ["tmp"]
  | standard names => standard names.dropLast

/-- What names stand for from the root on, if the last one is not yet walked. -/
def standard? (names : List String) : Option Node :=
  if names = emptyDevice then some (.file #[])
  else match links.lookup names with
    | some target => some (.directory (standard target))
    | none => if names ∈ standardDirectories then some (.directory (standard names)) else none

/-- What a name stands for in a directory. -/
def entry? (files : List (String × Bytes)) : Directory → String → Option Node
  | working, name => (files.lookup name).map .file
  | standard names, name => standard? (names ++ [name])

end Directory

namespace Node

/-- Where a name leads to. -/
def step (files : List (String × Bytes)) : Node → String → Except FileError Node
  | file _, _ => .error .notDirectory
  | directory d, "" => .ok (directory d)
  | directory d, "." => .ok (directory d)
  | directory d, ".." => .ok (directory d.parent)
  | directory d, name =>
    if nameLimit < name.utf8ByteSize then .error .tooLong
    else (d.entry? files name).elim (.error .missing) .ok

/-- Where names lead to, one after the other. -/
def walk (files : List (String × Bytes)) (start : Node) (names : List String) :
    Except FileError Node :=
  names.foldlM (step files) start

/-- What a path leads to. -/
def ofPath (files : List (String × Bytes)) (path : String) : Except FileError Node :=
  if path.isEmpty then .error .missing
  else if pathLimit < path.utf8ByteSize then .error .tooLong
  else walk files (directory (if path.startsWith "/" then .root else .working)) (path.splitOn "/")

/-- What is read there. -/
def content : Node → Except FileError Bytes
  | file content => .ok content
  | directory _ => .error .isDirectory

end Node

/-- Files in the working directory. -/
def Files.ofList (files : List (String × Bytes)) : Files := fun path => do
  (← Node.ofPath files path).content

end VersionChain.Shell
