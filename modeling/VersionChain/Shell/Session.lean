import VersionChain.Record.Diff
import VersionChain.Settings.Variables
import VersionChain.Shell.Reply
import VersionChain.Store.Memory
import VersionChain.Store.Read
import VersionChain.Store.Tables

/-!
# Sessions

A session carries out commands on a store with rows in memory and a single table of one
column. A prompt asks for each command; the session ends with the input, at a command to
leave, or at a line that cannot be read.
-/

namespace VersionChain.Shell

/-- The settings of a session. -/
structure SessionSettings where
  table : TableSettings := {}
  service : ServiceSettings := {}
  deriving DecidableEq, Repr, Inhabited

/-- Settings from variables; those of the table are read first. -/
def SessionSettings.ofVariables (vars : Variables) : Except SettingsError SessionSettings := do
  let table ← TableSettings.ofVariables vars
  let service ← ServiceSettings.ofVariables vars
  return { table, service }

/-- A session: its store. -/
structure Session where
  store : Store MemoryRows

namespace Session

/-- A session with an empty table. -/
def new (settings : SessionSettings) : Except SettingsError Session := do
  settings.table.validate
  let service ← Service.new settings.service
  let empty : Store MemoryRows := .new service {} (DiffCoder.codec {})
  let (_, store) := StoreM.createTable shellTable 1 settings.table empty
  return { store }

/-- A session whose settings are read from variables. -/
def ofVariables (vars : Variables) : Except SettingsError Session := do
  new (← SessionSettings.ofVariables vars)

/-- Carries out an operation of the store and turns its result into a reply. -/
def operate (session : Session) (action : ExceptT ε (StateM (Store MemoryRows)) α)
    (reply : α → Reply) (failure : ε → Failure) : Reply × Session :=
  let (result, store) := action session.store
  (match result with
    | .ok value => reply value
    | .error cause => .failed (failure cause), ⟨store⟩)

/-- All counters, and the size of the table. -/
def statistics (session : Session) : Reply :=
  let { service, rows, .. } := session.store
  .statistics service.metrics (rows.rowCount shellTable) (rows.storedBytes shellTable)

/-- Carries out a command. -/
def execute (files : Files) (session : Session) : Command → Reply × Session
  | .blank => (.silence, session)
  | .insert row =>
    session.operate (StoreM.insert shellTable row.key row.content) .inserted .insert
  | .get group seq =>
    session.operate (StoreM.getColumn shellTable (.text group) seq 0) .value .read
  | .latest group => session.operate (StoreM.latestSeq shellTable (.text group)) .latest .read
  | .history group => session.operate (StoreM.history shellTable (.text group)) .history .read
  | .truncate => session.operate (StoreM.truncate shellTable) .truncated .truncate
  | .load path => session.operate (load files path) .loaded .load
  | .statistics => (session.statistics, session)
  | .exit => (.farewell, session)
  | .misused form => (.misused form, session)
  | .unknown word => (.unknown word, session)

/-- Stops the pool of the service. -/
def detach (session : Session) : Session :=
  ⟨{ session.store with service := session.store.service.detach }⟩

end Session

/-- What is shown before each command. -/
def prompt : String := "> "

/-- What a session showed, and whether it ended at a line that is not valid UTF-8. -/
structure Transcript where
  /-- What was shown, piece by piece. -/
  pieces : List String
  unreadable : Bool := false
  deriving DecidableEq, Repr

namespace Transcript

/-- All that was shown. -/
def output (t : Transcript) : String := .join t.pieces

/-- Shows something first. -/
def after (text : String) (t : Transcript) : Transcript := { t with pieces := text :: t.pieces }

end Transcript

namespace Session

/-- Carries out commands, where `none` is a line that cannot be read, and stops the pool at
the end. -/
def respond (files : Files) (session : Session) : List (Option Command) → Transcript × Session
  | [] => ({ pieces := [prompt] }, session.detach)
  | none :: _ => ({ pieces := [prompt], unreadable := true }, session)
  | some command :: rest =>
    let (reply, session) := session.execute files command
    if reply = .farewell then ({ pieces := [prompt, reply.text] }, session.detach)
    else
      let (transcript, session) := session.respond files rest
      ((transcript.after reply.text).after prompt, session)

/-- Carries out the commands in the lines of an input. -/
def run (files : Files) (session : Session) (input : Bytes) : Transcript × Session :=
  session.respond files (Command.ofInput input)

end Session

end VersionChain.Shell
