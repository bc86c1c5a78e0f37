import HackPlatform.Text.Numeral

/-!
# Source positions

A position names a file, a byte offset, a line and a column. Lines and columns count from one; line zero marks a position
that is not known.
-/

namespace HackPlatform

/-- A place in a source. -/
structure Position where
  file : Bytes := []
  offset : Int := 0
  line : Int := 0
  column : Int := 0
deriving DecidableEq

namespace Position

/-- Is the line known? -/
def isKnown (p : Position) : Bool := 0 < p.line

/-- The text of a position: the file, or a stand-in for it, and the line and column if they are known. -/
def text (p : Position) : Bytes :=
  let file := if p.file.isEmpty then ascii "<input>" else p.file
  if p.isKnown then file ++ [58] ++ Numeral.ofInt p.line ++ [58] ++ Numeral.ofInt p.column else file

end Position

/-- Something with its place in a source. -/
structure Located (α : Type) where
  pos : Position
  item : α
deriving DecidableEq

/-- The wording of a list of located faults: one a line, each after its position. -/
def Located.messages {α : Type} (message : α → Bytes) (entries : List (Located α)) : Bytes :=
  Bytes.joinWith [10] (entries.map fun e => e.pos.text ++ ascii ": " ++ message e.item)

end HackPlatform
