import ShardLedger.Config.Basic
import ShardLedger.Document.Toml.Read

/-!
# Configuration files

Configurations are written in TOML. A file that is there must be readable, well-formed and valid;
a user without a configuration file gets the defaults.

- `Config.ofToml`: the configuration that a text gives.
- `Config.load`, `Config.loadFrom`, `Config.loadUser`: from the bytes of a file.
-/

namespace ShardLedger

/-- Why no configuration could be loaded. -/
inductive LoadError where
  /-- The file is missing or is no text. -/
  | unreadable (path : String)
  | refused (path : String) (reason : LedgerError)
deriving DecidableEq

/-- What was being done. -/
def LoadError.context : LoadError → String
  | unreadable path => s!"Failed to read {path}"
  | refused path _ => s!"Failed to load {path}"

namespace Config

/-- The configuration that a TOML text gives. -/
def ofToml (text : String) : Except LedgerError Config := do
  match Toml.read? text with
  | none => throw (.configParse "malformed TOML document")
  | some d =>
    match ofDocument? true d with
    | none => throw (.configParse "a setting has the wrong type")
    | some config =>
      config.validate
      return config

/-- The configuration in a file, given by its bytes if it is there. -/
def load (path : String) (file : Option ByteArray) : Except LoadError Config :=
  match file.bind String.fromUTF8? with
  | none => .error (.unreadable path)
  | some text =>
    match ofToml text with
    | .ok config => .ok config
    | .error reason => .error (.refused path reason)

/-- Where a configuration directory keeps the configuration file. -/
def pathIn (dir : String) : String := s!"{dir}/arbor/ledger.toml"

/-- The configuration in a configuration directory, or the defaults if it has no file. -/
def loadFrom (dir : String) (file : Option ByteArray) : Except LoadError Config :=
  match file with
  | none => .ok {}
  | some bytes => load (pathIn dir) (some bytes)

/-- The configuration of a user, or the defaults if there is no configuration directory. -/
def loadUser (dir : Option String) (file : Option ByteArray) : Except LoadError Config :=
  match dir with
  | none => .ok {}
  | some dir => loadFrom dir file

end Config

end ShardLedger
