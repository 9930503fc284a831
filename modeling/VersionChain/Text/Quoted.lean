import VersionChain.Text.Hex
import VersionChain.Text.Unshown

/-!
# Quoted text

A text is quoted between double quotes, with a backslash before a quote or a backslash,
short names for the usual control characters, and the number of any other character that
has no picture of its own.
-/

namespace VersionChain.Text

/-- A character as it stands inside quotes. -/
def quotedChar (c : Char) : String :=
  match c with
  | '\x00' => "\\0"
  | '\t' => "\\t"
  | '\r' => "\\r"
  | '\n' => "\\n"
  | '\\' => "\\\\"
  | '"' => "\\\""
  | c => if isUnshown c then "\\u\x7b" ++ Hex.digits c.toNat ++ "\x7d" else c.toString

/-- The text between double quotes. -/
def quoted (text : String) : String :=
  "\"" ++ String.join (text.toList.map quotedChar) ++ "\""

end VersionChain.Text
