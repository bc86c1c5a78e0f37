import HackPlatform.Console.Session

/-!
# The translator

Translates a file of stack code, or all such files of a directory, to one file of assembly. The output file is complete if the
translator succeeds; if it fails once the file has been made, the file is removed.
-/

namespace HackPlatform.Console

open Code (Writer)

/-- The stack code that a path stands for. -/
structure Sources where
  /-- The files, in the order in which they are translated. -/
  files : List Bytes
  /-- Where the assembly goes if nothing else is asked for. -/
  output : Bytes
  isDirectory : Bool

/-- The ending of the names of assembly files. -/
def assemblyEnding : Bytes := ascii ".asm"

/-- Finds the stack code that a path stands for. -/
def Sources.find (v : Volume) (path : Bytes) : Except Failure Sources :=
  match v.stat path with
  | .error e => .error (.notFound e)
  | .ok (.file _ _) =>
    if Path.ending path == Code.fileEnding then
      .ok { files := [path], output := Code.unitName path ++ assemblyEnding, isDirectory := false }
    else .error (.notStackCode path)
  | .ok .directory =>
    match v.glob? (Path.join path (42 :: Code.fileEnding)) with
    | none => .error .badPattern
    | some [] => .error (.noStackCode path)
    | some files =>
      .ok { files := files.mergeSort
            output := Path.join path (Path.base (v.absolute path) ++ assemblyEnding)
            isDirectory := true }

/-- Brings a file that is being written up to date. -/
def Session.update (s : Session) (target : Option Location) (w : Writer) : Session :=
  match target with
  | none => s
  | some loc => { s with volume := s.volume.put loc (.file w.sink.contents) }

/-- Writes the assembly of files up to the first that fails. The assembly may go to a file that is read later on. -/
def writeFiles (verbose : Bool) (target : Option Location) :
    Session → Writer → List Bytes → Session × Writer × Option Failure
  | s, w, [] => (s, w, none)
  | s, w, path :: rest =>
    let s := if verbose then s.note (ascii "translating " ++ path) else s
    match s.volume.openSource path with
    | .error e => (s, w, some (.notOpened e))
    | .ok source =>
      match w.writeFile path (Code.unitName (Path.base path)) source with
      | (w, some e) => (s.update target w, w, some (.build e))
      | (w, none) => writeFiles verbose target (s.update target w) w rest

/-- Writes the start-up code, if it is wanted, and the assembly of files. -/
def writeProgram (verbose : Bool) (target : Option Location) (bootstrap : Bool) (s : Session) (w : Writer)
    (files : List Bytes) : Session × Writer × Option Failure :=
  match w.start bootstrap with
  | (w, some e) => (s.update target w, w, some (.build e))
  | (w, none) => writeFiles verbose target (s.update target w) w files

def translateToText (verbose bootstrap : Bool) (s : Session) (files : List Bytes) : Session × Except Failure Bytes :=
  match writeProgram verbose none bootstrap s (Writer.new {}) files with
  | (s, _, some e) => (s, .error e)
  | (s, w, none) =>
    match w.close with
    | (_, some e) => (s, .error (.build (.writer e)))
    | (w, none) => (s, .ok w.sink.contents)

/-- Translates files to a file, which is removed if that fails. -/
def translateToFile (verbose bootstrap : Bool) (s : Session) (output : Bytes) (files : List Bytes) :
    Session × Option Failure :=
  match s.volume.create output with
  | .error e => (s, some (.notCreated e))
  | .ok (volume, loc) =>
    let (s, w, failure) :=
      writeProgram verbose (some loc) bootstrap { s with volume } (Writer.new volume.medium) files
    -- the writer is closed in any case; what went wrong before that is reported first
    let (w, closing) := w.close
    match failure, closing with
    | some e, _ => ({ s with volume := s.volume.erase loc }, some e)
    | none, some e => ({ s with volume := s.volume.erase loc }, some (.build (.writer e)))
    | none, none => (s.update (some loc) w, none)

def translate (settings : Settings) (o : Options) (path : Bytes) (s : Session) : Session × Option Failure :=
  match Sources.find s.volume path with
  | .error e => (s, some e)
  | .ok sources =>
    let output := if o.output.isEmpty then sources.output else o.output
    let bootstrap := sources.isDirectory && settings.bootstrap && !o.noBootstrap
    translateToFile o.verbose bootstrap s output sources.files

end HackPlatform.Console
