import VersionChain.Shell.Command
import VersionChain.Shell.Load

/-!
# Replies

Every command but a blank line is answered by a line, and `STATS` by several. A command
that fails is answered by the reason.
-/

namespace VersionChain.Shell

/-- Why a command failed. -/
inductive Failure where
  | insert (cause : StoreError)
  | read (cause : StoreError)
  | truncate (cause : StoreError)
  | load (cause : LoadError)
  deriving DecidableEq, Repr

/-- Wording of a failure. -/
def Failure.message : Failure → String
  | insert cause => s!"insert failed: {cause.message}"
  | read cause => s!"read failed: {cause.message}"
  | truncate cause => s!"truncate failed: {cause.message}"
  | load cause => s!"load failed: {cause.message}"

/-- The answer to a command. -/
inductive Reply where
  | silence
  | inserted (outcome : Outcome)
  | value (content : Option Bytes)
  | latest (seq : Option Nat)
  | history (seqs : List Nat)
  | truncated (dropped : Invalidated)
  | loaded (result : Loaded)
  | statistics (metrics : Metrics) (rows storedBytes : Nat)
  | farewell
  | misused (form : Form)
  | unknown (word : String)
  | failed (cause : Failure)
  deriving DecidableEq, Repr

namespace Reply

/-- How the record of the only column was written. -/
def describeTag : List Tag → String
  | .back n :: _ => s!"diff -{n}"
  | _ => "keyframe"

/-- What is shown for something that is missing. -/
def orNil (text : Option String) : String := text.getD "(nil)"

/-- The line about an insert. -/
def describeOutcome (o : Outcome) : String :=
  s!"OK seq={o.seq} {describeTag o.tags} ({o.rawBytes}B -> {o.storedBytes}B)"

/-- The line about the versions of a group. -/
def describeHistory : List Nat → String
  | [] => "(empty)"
  | seqs => " ".intercalate (seqs.map toString) ++ s!" ({seqs.length} versions)"

/-- The lines of a reply. -/
def lines : Reply → List String
  | silence => []
  | inserted outcome => [describeOutcome outcome]
  | value content => [orNil (content.map Text.decodeLossy)]
  | latest seq => [orNil (seq.map toString)]
  | history seqs => [describeHistory seqs]
  | truncated dropped => [s!"OK ({dropped.total} cache entries dropped)"]
  | loaded result => [s!"OK ({result.rows} rows, {result.groups} groups)"]
  | statistics metrics rows storedBytes =>
    [metrics.text, s!"table {shellTable}: rows={rows} stored={storedBytes}B"]
  | farewell => ["bye"]
  | misused form => [s!"ERR usage: {form.text}"]
  | unknown word => [s!"unknown command: {word}"]
  | failed cause => [s!"ERR {cause.message}"]

/-- The text of a reply. -/
def text (reply : Reply) : String := .join (reply.lines.map (· ++ "\n"))

end Reply

end VersionChain.Shell
