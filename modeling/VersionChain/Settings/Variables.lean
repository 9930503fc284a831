import VersionChain.Settings.Basic
import VersionChain.Text.Blank
import VersionChain.Text.Numeral

/-!
# Settings from variables

Settings are read from named text variables, each of which may be unset and then leaves the
default. Blanks around a value do not count. The first value that cannot be read is the
error; what was read is checked at the end.
-/

namespace VersionChain

/-- The variables at hand: the text of each that is set. -/
abbrev Variables := String → Option String

namespace Variables

/-- The value of a variable, read by `parse` from its trimmed text, or else the default. -/
def read (vars : Variables) (parse : List Char → Option α) (name : String) (default : α) :
    Except SettingsError α :=
  match vars name with
  | none => .ok default
  | some text =>
    match parse (Text.trim text.toList) with
    | some value => .ok value
    | none => .error (.unreadable name text)

/-- The value of a variable that holds a number. -/
def number (vars : Variables) (name : String) (default : Nat) : Except SettingsError Nat :=
  vars.read Text.number? name default

/-- The truth value written by a text. -/
def truth? (text : List Char) : Option Bool :=
  if text = "true".toList then some true
  else if text = "false".toList then some false
  else none

/-- The value of a variable that holds a truth value. -/
def truth (vars : Variables) (name : String) (default : Bool) : Except SettingsError Bool :=
  vars.read truth? name default

end Variables

/-- Table settings from variables. -/
def TableSettings.ofVariables (vars : Variables) : Except SettingsError TableSettings := do
  let plain : TableSettings := {}
  let depth ← vars.number "DELTACHAIN_DEPTH" plain.depth
  let keyframeEvery ← vars.number "DELTACHAIN_KEYFRAME_EVERY" plain.keyframeEvery
  let extraPass ← vars.truth "DELTACHAIN_EXTRA_PASS" plain.extraPass
  let settings : TableSettings := ⟨depth, keyframeEvery, extraPass⟩
  settings.validate
  return settings

/-- Service settings from variables. -/
def ServiceSettings.ofVariables (vars : Variables) : Except SettingsError ServiceSettings := do
  let plain : ServiceSettings := {}
  let sequenceMb ← vars.number "DELTACHAIN_SEQ_CACHE_MB" plain.sequenceMb
  let locationMb ← vars.number "DELTACHAIN_LOCATION_CACHE_MB" plain.locationMb
  let contentMb ← vars.number "DELTACHAIN_CONTENT_CACHE_MB" plain.contentMb
  let contentMaxEntry ← vars.number "DELTACHAIN_CONTENT_MAX_ENTRY" plain.contentMaxEntry
  let stagingSlots ← vars.number "DELTACHAIN_STAGING_SLOTS" plain.stagingSlots
  let threads ← vars.number "DELTACHAIN_ENCODE_THREADS" plain.threads
  let settings : ServiceSettings :=
    ⟨sequenceMb, locationMb, contentMb, contentMaxEntry, stagingSlots, threads⟩
  settings.validate
  return settings

end VersionChain
