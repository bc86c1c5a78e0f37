import HackPlatform.Code.Writer
import HackPlatform.Stack.Program

/-!
# Building programs from files

A program is built from one or more files of stack code, which one writer turns into assembly in order.
-/

namespace HackPlatform.Code

/-- Why a file could not be built. -/
inductive BuildError where
  /-- The file is no stack program. -/
  | source (error : Stack.Error)
  /-- Its assembly could not be written. -/
  | writer (error : Writer.Error)
deriving DecidableEq

def BuildError.message : BuildError → Bytes
  | source error => error.message
  | writer error => error.message

/-- The ending of the names of stack code files. -/
def fileEnding : Bytes := ascii ".vm"

/-- The name that symbols carry for a file: that of the file without its ending. -/
def unitName (fileName : Bytes) : Bytes := Bytes.dropEnding fileEnding fileName

namespace Writer

/-- Writes the assembly of a file. Positions name the file by `name`, symbols by `unit`. -/
def writeFile (w : Writer) (name unit : Bytes) (source : Source) : Writer × Option BuildError :=
  match Stack.parse name source with
  | .error e => (w, some (.source e))
  | .ok commands =>
    let (w, _, e) := (w.setFile unit).writeAll 0 commands
    (w, e.map .writer)

def writeFiles (w : Writer) : List (Bytes × Bytes) → Writer × Option BuildError
  | [] => (w, none)
  | (name, text) :: rest =>
    match w.writeFile name (unitName name) (Source.ofBytes text) with
    | (w, none) => w.writeFiles rest
    | (w, some e) => (w, some e)

/-- Writes the start-up code, if it is wanted. -/
def start (w : Writer) (wanted : Bool) : Writer × Option BuildError :=
  if wanted then
    let (w, e) := w.bootstrap
    (w, e.map .writer)
  else (w, none)

end Writer

/-- The assembly of files given by their names and texts, with the start-up code in front if it is wanted. -/
def build (bootstrap : Bool) (files : List (Bytes × Bytes)) : Except BuildError Bytes :=
  match (Writer.new {}).start bootstrap with
  | (_, some e) => .error e
  | (w, none) =>
    match w.writeFiles files with
    | (_, some e) => .error e
    | (w, none) =>
      match w.close with
      | (_, some e) => .error (.writer e)
      | (w, none) => .ok w.sink.contents

end HackPlatform.Code
