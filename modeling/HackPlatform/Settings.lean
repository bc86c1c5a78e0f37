import HackPlatform.Assembly.Statement
import HackPlatform.Machine.Computer
import HackPlatform.Text.Quoted
import HackPlatform.Toml.KeyTable
import HackPlatform.Toml.Moment
import HackPlatform.Toml.Reader

/-!
# Settings of the tools

Settings are read from a document on top of their defaults. A document may hold more than the tools know: what is not a
setting is passed over. Names of tables and settings match in any letter case; the addresses of presets are taken as they
are written.
-/

namespace HackPlatform

structure Settings where
  /-- Does a directory's program start with the call of its entry point? -/
  bootstrap : Bool := true
  /-- The largest number of cycles of a run. -/
  maxCycles : Int := 10000000
  /-- Is the keyboard to be read key by key? -/
  raw : Bool := true
  /-- Words to be stored in memory before a run, by address or symbol. -/
  presets : List (Bytes × Int) := []

namespace Settings

/-- A single setting. -/
inductive Item where
  | bootstrap
  | maxCycles
  | raw
  | preset (name : Bytes)
deriving DecidableEq

/-- A place of a document that the tools know: a table or a setting. -/
inductive Place where
  | document
  | translate
  | run
  | presets
  | item (i : Item)
deriving DecidableEq

/-- The place that a name leads to. Inside of a setting there is none. -/
def Place.inside? (p : Place) (name : Bytes) : Option Place :=
  let known := Bytes.lower name
  match p with
  | .document =>
    if known == ascii "translate" then some .translate
    else if known == ascii "run" then some .run
    else none
  | .translate => if known == ascii "bootstrap" then some (.item .bootstrap) else none
  | .run =>
    if known == ascii "max_cycles" then some (.item .maxCycles)
    else if known == ascii "raw" then some (.item .raw)
    else if known == ascii "preset" then some .presets
    else none
  | .presets => some (.item (.preset name))
  | .item _ => none

/-- Where a key leads. -/
inductive Destination where
  | place (p : Place)
  | unknown
  /-- The key goes on behind a setting. -/
  | beyond (i : Item)

/-- Follows a key from a place. -/
def Place.follow : Place → Toml.Key → Destination
  | p, [] => .place p
  | .item i, _ :: _ => .beyond i
  | p, name :: rest =>
    match p.inside? name with
    | none => .unknown
    | some next => next.follow rest

def setPreset (s : Settings) (name : Bytes) (v : Int) : Settings :=
  { s with presets := (name, v) :: s.presets.filter (·.1 != name) }

/-- Gives a setting a value, if it is one of the setting's type. -/
def store? (s : Settings) (i : Item) (v : Toml.Value) : Option Settings :=
  match i, v with
  | .bootstrap, .boolean b => some { s with bootstrap := b }
  | .raw, .boolean b => some { s with raw := b }
  | .maxCycles, .integer digits => (Toml.integerValue? digits).map fun n => { s with maxCycles := n }
  | .preset name, .integer digits => (Toml.integerValue? digits).map fun n => s.setPreset name n
  | _, _ => none

/-- A document that there is no way to go on with. -/
inductive Breakdown where
  /-- A header goes on behind a setting. -/
  | headerBeyond (i : Item)
  /-- A known place was given a date or a time, which no place takes. -/
  | momentAt (p : Place) (m : Toml.Moment)
deriving DecidableEq

/-- Why a document gives no settings. -/
inductive Fault where
  /-- The document is no document, names a key twice or gives a setting a value of another type. -/
  | malformed
  | breakdown (b : Breakdown)
deriving DecidableEq

mutual

/-- Gives a place a value: a setting takes a value of its type, and a table takes a table. A date or a time is taken by
neither, but only one that exists leads to a breakdown. -/
def assign (p : Place) (s : Settings) : Toml.Value → Except Fault Settings
  | .table pairs =>
    match p with
    | .item _ => .error .malformed
    | _ => assignPairs p s pairs
  | .moment digits =>
    match Toml.Moment.ofText? digits with
    | none => .error .malformed
    | some m => .error (.breakdown (.momentAt p m))
  | v =>
    match p with
    | .item i =>
      match s.store? i v with
      | none => .error .malformed
      | some next => .ok next
    | _ => .error .malformed

/-- Assigns pairs inside of a table, in order. -/
def assignPairs (p : Place) (s : Settings) : List (Toml.Key × Toml.Value) → Except Fault Settings
  | [] => .ok s
  | (key, v) :: rest =>
    match p.follow key with
    | .unknown => assignPairs p s rest
    | .beyond _ => .error .malformed
    | .place q =>
      match assign q s v with
      | .error f => .error f
      | .ok next => assignPairs p next rest

end

/-- A document while it is read: the settings, the keys it has named and the table that is open, if it is known. -/
structure Reading where
  settings : Settings := {}
  keys : Toml.KeyTable := {}
  inside : Option Place := some .document

/-- Opens the table that a header names. The header of a preset makes the preset. -/
def Reading.enter (r : Reading) (keys : Toml.KeyTable) (listed : Bool) (key : Toml.Key) : Except Fault Reading :=
  match Place.follow .document key with
  | .unknown => .ok { r with keys, inside := none }
  | .beyond i => .error (.breakdown (.headerBeyond i))
  | .place p =>
    if listed then .error .malformed
    else
      match p with
      | .item (.preset name) =>
        let v := (r.settings.presets.lookup name).getD 0
        .ok { settings := r.settings.setPreset name v, keys, inside := some p }
      | _ => .ok { r with keys, inside := some p }

/-- Takes one expression. Pairs of a table that is not known are not looked at. -/
def Reading.take (r : Reading) (e : Toml.Expression) : Except Fault Reading :=
  match e, r.inside with
  | .pair _ _, none => .ok r
  | _, _ =>
    match r.keys.record? e with
    | none => .error .malformed
    | some keys =>
      match e with
      | .table key => r.enter keys false key
      | .listedTable key => r.enter keys true key
      | .pair key v =>
        match assignPairs (r.inside.getD .document) r.settings [(key, v)] with
        | .error f => .error f
        | .ok settings => .ok { r with settings, keys }

/-- The settings that a text gives. -/
def read (text : Bytes) : Except Fault Settings :=
  let document := Toml.Document.read text
  match document.expressions.foldlM Reading.take {} with
  | .error f => .error f
  | .ok r => if document.complete then .ok r.settings else .error .malformed

/-- The address that the name of a preset stands for: a predefined symbol or a number. -/
def presetAddress? (name : Bytes) : Option Int :=
  match Assembly.predefined? name with
  | some n => some n
  | none => Numeral.readInt? name

/-- Why a preset was refused. -/
inductive PresetError where
  | invalidAddress (name : Bytes)
  | outOfRange (name : Bytes) (v : Int)
deriving DecidableEq

def PresetError.message : PresetError → Bytes
  | invalidAddress name => ascii "preset: invalid address " ++ Quoted.text name
  | outOfRange name v => ascii "preset " ++ name ++ ascii ": value " ++ Numeral.ofInt v ++ ascii " out of range"

/-- A preset as a setting of the computer. Its value may be given as a signed or as an unsigned word. -/
def presetSetting (name : Bytes) (v : Int) : Except PresetError Computer.Setting :=
  match presetAddress? name with
  | none => .error (.invalidAddress name)
  | some addr =>
    if v < -32768 || 65535 < v then .error (.outOfRange name v)
    else .ok (.preset addr (Word.ofInt v))

/-- The presets as settings of the computer. -/
def presetSettings (s : Settings) : Except PresetError (List Computer.Setting) :=
  s.presets.mapM fun (name, v) => presetSetting name v

/-- Is there a preset for the address? Its name is tried as a symbol, and then as a number. -/
def hasPreset (s : Settings) (addr : Int) : Bool :=
  s.presets.any fun (name, _) =>
    (Assembly.predefined? name).map Int.ofNat == some addr || Numeral.readInt? name == some addr

end Settings

end HackPlatform
