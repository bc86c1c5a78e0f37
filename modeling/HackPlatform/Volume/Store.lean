import HackPlatform.Stream.Sink
import HackPlatform.Text.Line
import HackPlatform.Volume.Pattern

/-!
# Volumes

A volume is a tree of directories and files as a value, with a working directory from which paths that are not absolute
start. Any file may fail to be opened, or to be read to its end. A file that is written is a sink of the volume's medium, which may
run full or fail to be closed.
-/

namespace HackPlatform

/-- The names from the root to a place of a volume. -/
abbrev Location := List Bytes

/-- How far a file can be used. -/
inductive Condition where
  | sound
  /-- It can be opened neither for reading nor for writing. -/
  | locked
  /-- Reading it fails behind some bytes. -/
  | damaged (count : Nat)
deriving DecidableEq

/-- What can be at a location. -/
inductive Node where
  | directory
  | file (text : Bytes) (condition : Condition := .sound)
deriving DecidableEq

structure Volume where
  /-- What is at each location below the root. -/
  nodes : List (Location × Node) := []
  /-- Where paths start that are not absolute. -/
  workingDirectory : Location := []
  /-- What new files are stored on. -/
  medium : Stream.Sink := { closable := true }

namespace Volume

/-- What is at a location. The root is a directory. -/
def get? (v : Volume) (loc : Location) : Option Node :=
  if loc.isEmpty then some .directory else v.nodes.lookup loc

/-- Puts something at a location, in place of what is there. -/
def put (v : Volume) (loc : Location) (n : Node) : Volume :=
  { v with nodes := (loc, n) :: v.nodes.filter (·.1 != loc) }

def erase (v : Volume) (loc : Location) : Volume := { v with nodes := v.nodes.filter (·.1 != loc) }

def maxName : Nat := 255

def maxPath : Nat := 4095

/-- Goes from a location to one of its names. -/
def enter (v : Volume) (loc : Location) (name : Bytes) : Except AccessCause Location :=
  match v.get? loc with
  | none => .error .notFound
  | some (.file _ _) => .error .notDirectory
  | some .directory =>
    if name == Path.here then .ok loc
    else if name == Path.above then .ok loc.dropLast
    else if maxName < name.length then .error .nameTooLong
    else .ok (loc ++ [name])

/-- The location that names lead to. It need not exist, but the directories on the way do. -/
def follow (v : Volume) (start : Location) (names : List Bytes) : Except AccessCause Location :=
  names.foldlM v.enter start

/-- Is the text a path at all? -/
def checkPath (path : Bytes) : Except AccessCause Unit :=
  if path.contains 0 then .error .invalid
  else if path.isEmpty then .error .notFound
  else if maxPath < path.length then .error .nameTooLong
  else .ok ()

/-- Where a path starts. -/
def startOf (v : Volume) (path : Bytes) : Location := if Path.isAbsolute path then [] else v.workingDirectory

/-- Does the path end with a slash? -/
def endsOpen (path : Bytes) : Bool := path.getLast? == some Path.separator

/-- The location that a path leads to. A slash at the end asks for a directory. -/
def locate (v : Volume) (path : Bytes) : Except AccessCause Location := do
  checkPath path
  v.follow (v.startOf path) (Path.names path ++ if endsOpen path then [Path.here] else [])

def find (v : Volume) (path : Bytes) : Except AccessCause Node := do
  let loc ← v.locate path
  match v.get? loc with
  | some n => .ok n
  | none => .error .notFound

/-- What a path leads to, for those who ask what it is. -/
def stat (v : Volume) (path : Bytes) : Except AccessError Node := (v.find path).mapError (⟨.stat, path, ·⟩)

/-- Opens a file for reading line by line. A directory can be opened, but not be read. -/
def openSource (v : Volume) (path : Bytes) : Except AccessError Source :=
  match v.find path with
  | .error cause => .error ⟨.open, path, cause⟩
  | .ok .directory => .ok (Source.directory path)
  | .ok (.file text .sound) => .ok (Source.ofBytes text)
  | .ok (.file _ .locked) => .error ⟨.open, path, .denied⟩
  | .ok (.file text (.damaged count)) => .ok (Source.broken path (text.take count))

def readText (v : Volume) (path : Bytes) : Except AccessError Bytes :=
  match v.find path with
  | .error cause => .error ⟨.open, path, cause⟩
  | .ok .directory => .error ⟨.read, path, .isDirectory⟩
  | .ok (.file text .sound) => .ok text
  | .ok (.file _ .locked) => .error ⟨.open, path, .denied⟩
  | .ok (.file _ (.damaged _)) => .error ⟨.read, path, .broken⟩

/-- The location of a file to be made. The path must end with a name. -/
def locateNew (v : Volume) (path : Bytes) : Except AccessCause Location := do
  checkPath path
  let names := Path.names path
  let parent ← v.follow (v.startOf path) names.dropLast
  match v.get? parent, names.getLast? with
  | none, _ => .error .notFound
  | some (.file _ _), _ => .error .notDirectory
  | some .directory, none => .error .isDirectory
  | some .directory, some name =>
    if endsOpen path || name == Path.here || name == Path.above then .error .isDirectory
    else if maxName < name.length then .error .nameTooLong
    else
      let loc := parent ++ [name]
      -- a file that is there will be emptied
      match v.get? loc with
      | some .directory => .error .isDirectory
      | some (.file _ .locked) => .error .denied
      | _ => .ok loc

/-- Makes an empty file, or empties the one that is there. -/
def create (v : Volume) (path : Bytes) : Except AccessError (Volume × Location) :=
  match v.locateNew path with
  | .error cause => .error ⟨.open, path, cause⟩
  | .ok loc => .ok (v.put loc (.file []), loc)

/-- The names in a directory, in the order of their bytes. -/
def list (v : Volume) (loc : Location) : List Bytes :=
  (v.nodes.filterMap fun (p, _) => if p.dropLast == loc then p.getLast? else none).mergeSort

/-- The paths in a directory whose names match a pattern; `none` if one of the names shows the pattern to be malformed.
What is no directory has none. -/
def matchesIn? (v : Volume) (pattern : Pattern) (directory : Bytes) : Option (List Bytes) :=
  match v.locate directory with
  | .error _ => some []
  | .ok loc =>
    if v.get? loc == some .directory then do
      let paths ← (v.list loc).mapM fun name =>
        (pattern.accepts? name).map fun accepted => if accepted then [Path.join directory name] else []
      some paths.flatten
    else some []

/-- The directory part of a pattern without its slash. -/
def patternDirectory (directory : Bytes) : Bytes :=
  if directory.isEmpty then Path.here
  else if directory == [Path.separator] then directory
  else directory.dropLast

/-- The paths that match a pattern, which may have patterns for directories too; `none` if it turns out to be malformed.
The number bounds how many directories. -/
def globFor? (v : Volume) : Nat → Bytes → Option (List Bytes)
  | 0, _ => none
  | bound + 1, text =>
    -- a pattern that is malformed right at its start is refused before any directory is looked at
    if ((Pattern.read text).accepts? []).isNone then none
    else if !Pattern.isSpecial text then some (if (v.find text).isOk then [text] else [])
    else
      let (directory, file) := Path.split text
      let directory := patternDirectory directory
      let directories := if Pattern.isSpecial directory then globFor? v bound directory else some [directory]
      match directories with
      | none => none
      | some directories => (directories.mapM (v.matchesIn? (Pattern.read file))).map List.flatten

/-- The paths that match a pattern; `none` if it turns out to be malformed. -/
def glob? (v : Volume) (text : Bytes) : Option (List Bytes) := v.globFor? (text.length + 1) text

def pathOf (loc : Location) : Bytes := Path.separator :: Bytes.joinWith [Path.separator] loc

def absolute (v : Volume) (path : Bytes) : Bytes :=
  if Path.isAbsolute path then Path.clean path else Path.join (pathOf v.workingDirectory) path

/-- Puts something at a location, with the directories on the way to it. -/
def add (v : Volume) (loc : Location) (n : Node) : Volume :=
  let parents := (List.range loc.length).map fun k => loc.take k
  let v := parents.foldl (fun (v : Volume) p => if (v.get? p).isSome then v else v.put p .directory) v
  v.put loc n

/-- The files of a volume that differ from those of an earlier one, with their texts, or nothing if they are gone. -/
def changes (before after : Volume) : List (Location × Option Bytes) :=
  let written := after.nodes.filterMap fun (loc, n) =>
    match n with
    | .file text _ => if before.get? loc == some n then none else some (loc, some text)
    | .directory => none
  let gone := before.nodes.filterMap fun (loc, n) =>
    match n with
    | .file _ _ => if (after.get? loc).isNone then some (loc, none) else none
    | .directory => none
  written ++ gone

end Volume

end HackPlatform
