import HackPlatform.Text.Bytes

/-!
# Lines of a source

Readers take a source line by line. A line ends at a line feed, and one carriage return before it is dropped. A last line
without a line feed counts unless it is empty. A line may hold at most 65535 bytes; a longer one ends the reading, and the
lines before it have been delivered by then. So does an access that fails.
-/

namespace HackPlatform

/-- Why an access failed. -/
inductive AccessCause where
  | notFound
  | notDirectory
  | isDirectory
  | nameTooLong
  | invalid
  | denied
  | broken
deriving DecidableEq

def AccessCause.message : AccessCause → Bytes
  | notFound => ascii "no such file or directory"
  | notDirectory => ascii "not a directory"
  | isDirectory => ascii "is a directory"
  | nameTooLong => ascii "file name too long"
  | invalid => ascii "invalid argument"
  | denied => ascii "permission denied"
  | broken => ascii "input/output error"

inductive Access where
  | open
  | stat
  | read
deriving DecidableEq

def Access.word : Access → Bytes
  | .open => ascii "open"
  | stat => ascii "stat"
  | read => ascii "read"

/-- An access that failed. -/
structure AccessError where
  access : Access
  path : Bytes
  cause : AccessCause
deriving DecidableEq

def AccessError.message (e : AccessError) : Bytes :=
  e.access.word ++ [32] ++ e.path ++ ascii ": " ++ e.cause.message

/-- Why reading stopped before the end. -/
inductive ReadFault where
  /-- A line was longer than a reader can hold. -/
  | lineTooLong
  /-- The system did not read on. -/
  | access (error : AccessError)
deriving DecidableEq

namespace ReadFault

@[deprecated access (since := "2026-11-15"), match_pattern]
abbrev isDirectory (error : AccessError) : ReadFault := access error

def message : ReadFault → Bytes
  | lineTooLong => ascii "bufio.Scanner: token too long"
  | access error => error.message

end ReadFault

/-- What reading a text line by line gives: the lines delivered, and what stopped the reading before the end, if
anything did. -/
structure Source where
  lines : List Bytes
  fault : Option ReadFault
  /-- Is the last line only the part of it before the fault? A reader meets the fault when it takes that line. -/
  cut : Bool := false

namespace Source

/-- The most bytes of a line, its carriage return included. -/
def lineLimit : Nat := 65535

/-- A line without the carriage return at its end. -/
def dropReturn (line : Bytes) : Bytes := if line.getLast? = some 13 then line.dropLast else line

/-- The raw lines of a text: the pieces between line feeds, without an empty last one. -/
def rawLines (text : Bytes) : List Bytes :=
  let pieces := Bytes.pieces 10 text
  if pieces.getLast? = some [] then pieces.dropLast else pieces

def ofBytes (text : Bytes) : Source :=
  let raw := rawLines text
  { lines := (raw.takeWhile (·.length ≤ lineLimit)).map dropReturn
    fault := if raw.all (·.length ≤ lineLimit) then none else some .lineTooLong }

/-- Feeds lines to a reader, from a given state on, until it is full. -/
def feedLines {σ : Type} (full : σ → Bool) (step : σ → Bytes → σ) (fault : Option ReadFault) (cut : Bool) :
    σ → List Bytes → σ × Option ReadFault
  | s, [] => (s, fault)
  | s, line :: rest =>
    if full s then (s, if cut && rest.isEmpty then fault else none) else feedLines full step fault cut (step s line) rest

/-- Feeds the lines to a reader until it is full. The reader looks one line ahead, so it still meets the fault of a line
right behind the one that filled it. -/
def feed {σ : Type} (src : Source) (full : σ → Bool) (step : σ → Bytes → σ) (s : σ) : σ × Option ReadFault :=
  feedLines full step src.fault src.cut s src.lines

/-- Reading a directory delivers no line. -/
def directory (path : Bytes) : Source := { lines := [], fault := some (.access ⟨.read, path, .isDirectory⟩) }

/-- Reading that fails behind a text. A line that is too long stops it before. -/
def broken (path text : Bytes) : Source :=
  let source := ofBytes text
  { lines := source.lines
    fault := some (source.fault.getD (.access ⟨.read, path, .broken⟩))
    cut := source.fault.isNone && !text.isEmpty && text.getLast? != some 10 }

end Source

end HackPlatform
