import HackPlatform.Code.Scope
import HackPlatform.Stream.Guarded
import HackPlatform.Stream.Buffered

/-!
# Writers

A writer turns commands into assembly and writes the blocks, each with a single write, to a buffered stream. An operation that
fails leaves the scope as it was. Once the stream has failed nothing reaches it any more; once the writer is closed it
refuses every block.
-/

namespace HackPlatform.Code

open Stack (Kind Segment Command)

structure Writer where
  stream : Stream.Guarded Stream.Buffered
  scope : Scope := {}
  closed : Bool := false

namespace Writer

/-- Why an operation failed. -/
inductive Error where
  /-- The command has no block. -/
  | refused (refusal : Refusal)
  /-- The writer has been closed. -/
  | closed
  /-- The stream failed. -/
  | stream (error : Stream.Error)
  /-- An error at a place of the source. -/
  | located (pos : Position) (error : Error)
deriving DecidableEq

def Error.message : Error → Bytes
  | refused refusal => refusal.message
  | closed => ascii "writer closed"
  | stream error => error.message
  | located pos error => pos.text ++ ascii ": " ++ error.message

def new (sink : Stream.Sink) : Writer := { stream := { outlet := { sink } } }

def sink (w : Writer) : Stream.Sink := w.stream.outlet.sink

/-- Tells the writer that the commands of another file follow. -/
def setFile (w : Writer) (name : Bytes) : Writer := { w with scope := { w.scope with file := name } }

def emit (w : Writer) (block : Block) : Writer × Option Error :=
  if w.closed then (w, some .closed)
  else
    let (stream, _) := w.stream.write block.text
    -- a stream that has failed before still holds its first failure
    let failure := stream.failure
    ({ w with stream }, failure.map .stream)

/-- Writes the block of a command. -/
def perform (w : Writer) (c : Command) : Writer × Option Error :=
  match w.scope.lower c with
  | .error refusal => (w, some (.refused refusal))
  | .ok (block, scope) =>
    -- the scope moves on only once the block has been written
    match w.emit block with
    | (w, some e) => (w, some e)
    | (w, none) => ({ w with scope }, none)

/-- Writes the block of a push or pop, whichever the kind says. -/
def access (w : Writer) (kind : Kind) (segment : Segment) (index : Int64) : Writer × Option Error :=
  match kind with
  | .push => w.perform (.push segment index)
  | .pop => w.perform (.pop segment index)
  | _ => (w, some (.refused (.notPushOrPop kind)))

/-- Writes the block of a command of a source; an error names its place, if that is known. -/
def write (w : Writer) (c : Located Command) : Writer × Option Error :=
  match w.perform c.item with
  | (w, none) => (w, none)
  | (w, some e) => (w, some (if c.pos.isKnown then .located c.pos e else e))

/-- Writes commands up to the first that fails; gives how many were written. -/
def writeAll (w : Writer) (count : Nat) : List (Located Command) → Writer × Nat × Option Error
  | [] => (w, count, none)
  | c :: rest =>
    match w.write c with
    | (w, none) => w.writeAll (count + 1) rest
    | (w, some e) => (w, count, some e)

/-- The function that a program starts with. -/
def entryPoint : Bytes := ascii "Sys.init"

/-- Writes the code that sets up the stack and calls the entry point. -/
def bootstrap (w : Writer) : Writer × Option Error :=
  match w.emit Block.resetStack with
  | (w, some e) => (w, some e)
  | (w, none) => w.perform (.call entryPoint 0)

def flushStream (s : Stream.Guarded Stream.Buffered) : Stream.Guarded Stream.Buffered × Option Stream.Error :=
  match s.failure with
  | some e => (s, some e)
  | none =>
    let (outlet, fault) := s.outlet.flush
    ({ outlet, failure := none }, fault.map (⟨.flush, ·⟩))

/-- Passes on what is still in the buffer. -/
def flush (w : Writer) : Writer × Option Error :=
  if w.closed then (w, some .closed)
  else
    let (stream, e) := flushStream w.stream
    ({ w with stream }, e.map .stream)

/-- Closes the sink below a stream. -/
def closeStream (s : Stream.Guarded Stream.Buffered) : Stream.Guarded Stream.Buffered × Option Stream.Fault :=
  let (sink, fault) := s.outlet.sink.close
  ({ s with outlet := { s.outlet with sink } }, fault)

/-- Flushes the stream and closes the sink, in any case; the first failure is reported. -/
def close (w : Writer) : Writer × Option Error :=
  if w.closed then (w, some .closed)
  else
    let (stream, flushError) := flushStream w.stream
    let (stream, fault) := closeStream stream
    let error := match flushError with
      | some e => some e
      | none => fault.map (⟨.close, ·⟩)
    ({ w with stream, closed := true }, error.map .stream)

end Writer

end HackPlatform.Code
