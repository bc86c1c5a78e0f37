import HackPlatform.Settings
import HackPlatform.Volume.Store

/-!
# Settings files

Settings come from a file of a volume. A file that nobody has asked for need not exist.
-/

namespace HackPlatform.Settings

/-- Why settings could not be loaded. -/
inductive LoadError where
  /-- The file could not be read. -/
  | unreadable (error : AccessError)
  /-- The file gives no settings. -/
  | malformed (path : Bytes)
  /-- The file holds what nothing can make sense of. -/
  | breakdown (b : Breakdown)
deriving DecidableEq

def Item.typeName : Item → Bytes
  | bootstrap => ascii "bool"
  | maxCycles => ascii "int64"
  | raw => ascii "bool"
  | preset _ => ascii "int"

/-- The words for the type of a place. The document as a whole is never given a value. -/
def Place.typeName : Place → Bytes
  | document => ascii "struct"
  | translate => ascii "struct \x7b Bootstrap bool \"toml:\\\"bootstrap\\\"\" \x7d"
  | run => ascii ("struct \x7b MaxCycles int64 \"toml:\\\"max_cycles\\\"\"; Raw bool \"toml:\\\"raw\\\"\"; " ++
      "Preset map[string]int \"toml:\\\"preset\\\"\" \x7d")
  | presets => ascii "map[string]int"
  | item i => i.typeName

def momentTypeName : Toml.Moment → Bytes
  | .date => ascii "toml.LocalDate"
  | .time => ascii "toml.LocalTime"
  | .dateTime => ascii "toml.LocalDateTime"
  | .instant => ascii "time.Time"

def Breakdown.message : Breakdown → Bytes
  | headerBeyond i => ascii "unhandled part: " ++ i.typeName
  | momentAt p m =>
    ascii "reflect.Set: value of type " ++ momentTypeName m ++ ascii " is not assignable to type " ++ p.typeName

def LoadError.message : LoadError → Bytes
  | unreadable error => ascii "failed to read config file: " ++ error.message
  | malformed path => path ++ ascii ": failed to parse config file"
  | breakdown b => b.message

/-- The settings file that is read if none is named. -/
def defaultPath : Bytes := ascii "vmt.toml"

/-- Loads settings from a file. Unless the file was asked for, the defaults hold if it does not exist. -/
def load (v : Volume) (path : Bytes) (asked : Bool) : Except LoadError Settings :=
  match v.readText path with
  | .error e => if e.cause == .notFound && !asked then .ok {} else .error (.unreadable e)
  | .ok text =>
    match read text with
    | .ok s => .ok s
    | .error .malformed => .error (.malformed path)
    | .error (.breakdown b) => .error (.breakdown b)

end HackPlatform.Settings
