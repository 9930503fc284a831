import VersionChain.Key
import VersionChain.Text.Blank
import VersionChain.Text.Lines

/-!
# Rows as text

A row is written as the name of its group, a blank and the value, which may have blanks
inside. A text holds a row in each of its lines; blank lines and comments, which are rows
whose group starts with `#`, do not count.
-/

namespace VersionChain.Shell

/-- A value for a group. -/
structure Row where
  group : String
  value : String
  deriving DecidableEq, Repr

namespace Row

/-- The row that a line holds; `none` for a blank line. -/
def parse? (line : List Char) : Option Row :=
  match Text.trim line with
  | [] => none
  | text =>
    let (group, value) := Text.splitWord text
    some ⟨.ofList group, .ofList (Text.trim value)⟩

/-- Whether a row is a comment. -/
def isComment (row : Row) : Bool := row.group.toList.head? = some '#'

/-- The key of the group. -/
def key (row : Row) : Key := .text row.group

/-- What is stored of the row: one column. -/
def content (row : Row) : List Bytes := [utf8 row.value]

/-- The rows of a text with the numbers of their lines. -/
def ofText (text : String) : List (Nat × Row) :=
  (Text.lines '\n' text.toList).zipIdx 1 |>.filterMap fun (line, number) =>
    ((parse? line).filter (!·.isComment)).map (number, ·)

end Row

end VersionChain.Shell
