import VersionChain.Shell.Row
import VersionChain.Text.Numeral
import VersionChain.Text.UpperCase
import VersionChain.Text.Utf8

/-!
# Commands

A command is a line of words. The first word tells what to do, in any case; the others are
its arguments, and more of them than are needed do not matter. The arguments of `INSERT`
are a row, so that blanks inside a value are kept.
-/

namespace VersionChain.Shell

/-- Commands that need arguments. -/
inductive Form where
  | insert
  | get
  | latest
  | history
  | load
  deriving DecidableEq, Repr

/-- How a command is written. -/
def Form.text : Form → String
  | insert => "INSERT group value"
  | get => "GET group seq"
  | latest => "LATEST group"
  | history => "HISTORY group"
  | load => "LOAD path"

/-- What a line asks for. -/
inductive Command where
  /-- Nothing: a blank line. -/
  | blank
  | insert (row : Row)
  | get (group : String) (seq : Nat)
  | latest (group : String)
  | history (group : String)
  | truncate
  | load (path : String)
  | statistics
  | exit
  /-- A command without the arguments that it needs. -/
  | misused (form : Form)
  | unknown (word : String)
  deriving DecidableEq, Repr

namespace Command

/-- What follows the first word of a line. -/
def afterWord (line : List Char) : List Char :=
  (Text.trimStart line).dropWhile (!Text.isBlank ·)

/-- A command that needs one word. -/
def ofWord (form : Form) (command : String → Command) : List (List Char) → Command
  | word :: _ => command (.ofList word)
  | [] => misused form

/-- A read command: a group and a number. -/
def ofVersion : List (List Char) → Command
  | group :: seq :: _ =>
    match Text.number? seq with
    | some seq => get (.ofList group) seq
    | none => misused .get
  | _ => misused .get

/-- The command in a line. -/
def parse (line : List Char) : Command :=
  match Text.words line with
  | [] => blank
  | word :: arguments =>
    match String.ofList (Text.upperCase word) with
    | "INSERT" => ((Row.parse? (afterWord line)).map insert).getD (misused .insert)
    | "GET" => ofVersion arguments
    | "LATEST" => ofWord .latest latest arguments
    | "HISTORY" => ofWord .history history arguments
    | "TRUNCATE" => truncate
    | "LOAD" => ofWord .load load arguments
    | "STATS" => statistics
    | "EXIT" => exit
    | "QUIT" => exit
    | other => unknown other

/-- The command in a line of input; `none` if the line is not valid UTF-8. -/
def ofBytes? (line : List UInt8) : Option Command :=
  (Text.decode? line.toArray).map fun text => parse text.toList

/-- The commands of an input, one a line. -/
def ofInput (input : Bytes) : List (Option Command) :=
  (Text.lines (UInt8.ofNat '\n'.toNat) input.toList).map ofBytes?

end Command

end VersionChain.Shell
