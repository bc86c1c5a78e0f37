import HackPlatform.Assembly.Listing
import HackPlatform.Console.Session

/-!
# The assembler

Assembles a file to a program image, or lists the program of an image. An image is complete or absent, as the output of the
translator is.
-/

namespace HackPlatform.Console

/-- The ending of the names of program images. -/
def imageEnding : Bytes := ascii ".hack"

/-- The program of an assembly file. -/
def assembleFile (v : Volume) (path : Bytes) : Except Failure (Array Instruction) :=
  match v.openSource path with
  | .error e => .error (.notOpened e)
  | .ok source => (Assembly.assemble path source).mapError .assembly

def loadImage (v : Volume) (path : Bytes) : Except Failure (Array Instruction) :=
  match v.openSource path with
  | .error e => .error (.notOpened e)
  | .ok source => (Image.decode source).mapError (.image path)

/-- Writes an image to a sink through a buffer and closes the sink. Gives the first failure. -/
def writeImage (sink : Stream.Sink) (rom : Array Instruction) : Stream.Sink × Option Stream.Error :=
  let (b, encoding) := Image.encode ({ sink } : Stream.Buffered) rom
  let (b, flushing) := b.flush
  let (sink, closing) := b.sink.close
  (sink, encoding <|> flushing.map (⟨.write, ·⟩) <|> closing.map (⟨.close, ·⟩))

/-- Saves an image to a file, which is removed if that fails. -/
def saveImage (s : Session) (output : Bytes) (rom : Array Instruction) : Session × Option Failure :=
  match s.volume.create output with
  | .error e => (s, some (.notCreated e))
  | .ok (volume, loc) =>
    match writeImage volume.medium rom with
    | (_, some e) => ({ s with volume := volume.erase loc }, some (.stream e))
    | (sink, none) => ({ s with volume := volume.put loc (.file sink.contents) }, none)

def listImage (path : Bytes) (s : Session) : Session × Option Failure :=
  match loadImage s.volume path with
  | .error e => (s, some e)
  | .ok rom =>
    let (output, e) := Assembly.Listing.writeAll s.output 0 rom
    ({ s with output }, e.map .stream)

/-- Assembles a file, or lists an image if that is asked for. -/
def assemble (o : Options) (path : Bytes) (s : Session) : Session × Option Failure :=
  if o.listing then listImage path s
  else
    match assembleFile s.volume path with
    | .error e => (s, some e)
    | .ok rom =>
      let output := if o.output.isEmpty then Path.dropEnding path ++ imageEnding else o.output
      let s :=
        if o.verbose then
          s.note (ascii "writing " ++ Numeral.ofNat rom.size ++ ascii " instructions to " ++ output)
        else s
      saveImage s output rom

end HackPlatform.Console
