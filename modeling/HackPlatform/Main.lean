import HackPlatform.Console.Execute

/-!
# The command line

Captures the files that the arguments may reach as a volume, executes the arguments on it, and carries out what has changed.
Only files that may be read are captured with their texts.
-/

namespace HackPlatform.Console

def bytesOf (s : String) : Bytes := s.toUTF8.toList

/-- The text of bytes, for the system. -/
def textOf (b : Bytes) : String := (String.fromUTF8? ⟨b.toArray⟩).getD ""

/-- Is there a directory at a path, or a file, or nothing? -/
def kindAt (path : Bytes) : IO (Option Node) := do
  try
    let info ← ((← IO.currentDir) / textOf path).metadata
    return some (if info.type == .dir then .directory else .file [])
  catch _ => return none

/-- A file with its text, locked if it cannot be read. -/
def fileAt (loc : Location) : IO Node := do
  try
    return .file (← IO.FS.readBinFile (textOf (Volume.pathOf loc))).toList
  catch _ => return .file [] .locked

/-- Captures what is at a location: a directory down to a depth, and a file with its text if it may be read. -/
def captureTree : Nat → Bool → Volume → Location → IO Volume
  | depth, mayBeRead, v, loc => do
    match ← kindAt (Volume.pathOf loc) with
    | none => return v
    | some (.file _ _) => return v.put loc (← if mayBeRead then fileAt loc else pure (.file []))
    | some .directory =>
      let v := if loc.isEmpty then v else v.put loc .directory
      match depth with
      | 0 => return v
      | depth + 1 =>
        let entries ← ((← IO.currentDir) / textOf (Volume.pathOf loc)).readDir
        entries.toList.foldlM (fun v e =>
          let name := bytesOf e.fileName
          captureTree depth ([Code.fileEnding, assemblyEnding].contains (Path.ending name)) v (loc ++ [name])) v

/-- Captures a path: the directories on the way to it and what it leads to. -/
def capturePath (depth : Nat) (v : Volume) (path : Bytes) : IO Volume := do
  let names := Path.names (v.absolute path)
  let parents := (List.range names.length).map fun k => names.take k
  let v ← parents.foldlM (captureTree 0 true) v
  captureTree depth true v names

def captureSettings (o : Options) (v : Volume) : IO Volume :=
  capturePath 0 v (if o.config.isEmpty then Settings.defaultPath else o.config)

/-- Captures what arguments may reach. A path with a pattern may reach all that is below the working directory, as deep
as the path goes. -/
def capture (arguments : List Bytes) : IO Volume := do
  let v : Volume := { workingDirectory := Path.names (bytesOf (← IO.currentDir).toString) }
  match Invocation.read arguments with
  | .ok (.use _ o path) =>
    let v ← captureSettings o v
    let v ← if Pattern.isSpecial path then captureTree ((Path.names path).length + 1) false v v.workingDirectory
      else pure v
    let v ← capturePath 1 v path
    let outputs := if o.output.isEmpty then [assemblyEnding, imageEnding].map (Path.dropEnding path ++ ·) else [o.output]
    outputs.foldlM (capturePath 0) v
  | .ok (.settledGuidance o) => captureSettings o v
  | _ => return v

/-- Carries out a change of a file. -/
def carryOut (change : Location × Option Bytes) : IO Unit :=
  let path := textOf (Volume.pathOf change.1)
  match change.2 with
  | some text => IO.FS.writeBinFile path ⟨text.toArray⟩
  | none => IO.FS.removeFile path

def put (stream : IO.FS.Stream) (b : Bytes) : IO Unit := stream.write ⟨b.toArray⟩

end HackPlatform.Console

open HackPlatform Console in
/-- Executes the arguments; gives the exit code. -/
def main (arguments : List String) : IO UInt32 := do
  let arguments := arguments.map bytesOf
  let before ← capture arguments
  let (s, failure) := execute arguments { volume := before }
  (before.changes s.volume).forM carryOut
  put (← IO.getStderr) s.log
  put (← IO.getStdout) s.output.contents
  match failure with
  | none => return 0
  | some e =>
    put (← IO.getStderr) (e.message ++ [10])
    return 1
