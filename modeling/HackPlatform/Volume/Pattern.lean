import HackPlatform.Text.Utf8
import HackPlatform.Volume.Path

/-!
# Name patterns

In a pattern a star stands for any bytes but slashes, a question mark for any character but a slash, and a class in
brackets for one of its characters. A backslash takes the special meaning from what follows it. A pattern is matched chunk by
chunk: each chunk takes the first place at which it fits, and the last one has to reach the end of the name. A chunk that is
malformed is noticed only when it is reached: a name that does not fit the chunks before it is turned down without complaint.
-/

namespace HackPlatform

/-- A part of a pattern that takes one character or byte. -/
inductive PatternPart where
  /-- This byte. -/
  | byte (b : UInt8)
  /-- Any character but a slash. -/
  | any
  /-- A character in one of the ranges, or in none of them. -/
  | oneOf (negated : Bool) (ranges : List (Nat × Nat))
deriving DecidableEq

/-- Parts that stand together. After a star they may start later than where the chunk before has ended. -/
structure PatternChunk where
  starred : Bool
  parts : List PatternPart
deriving DecidableEq

/-- A pattern: its chunks up to the first malformed one. -/
structure Pattern where
  chunks : List PatternChunk
  /-- Does a malformed chunk follow, one with a class that is not closed or a backslash at its end? -/
  broken : Bool
deriving DecidableEq

namespace Pattern

/-- Has the text a byte with a special meaning in patterns? -/
def isSpecial (text : Bytes) : Bool := text.any fun b => b == 42 || b == 63 || b == 91 || b == 92

/-- One end of a range of a class. A backslash may stand in front of it, and the class must go on behind it. -/
def rangeEnd? (text : Bytes) : Option (Nat × Bytes) :=
  let escaped := match text with
    | 92 :: rest => some rest
    | 45 :: _ => none
    | 93 :: _ => none
    | _ => some text
  match escaped with
  | none => none
  | some [] => none
  | some (b :: rest) =>
    let r := Rune.decodeHead b rest
    let next := (b :: rest).drop r.bytes.length
    if r.isUndecodable || next.isEmpty then none else some (r.code, next)

/-- The ranges of a class up to its closing bracket, after those that have been read, reversed. A bracket right at the
start does not close the class. The number bounds how many ranges. -/
def ranges? : Nat → List (Nat × Nat) → Bytes → Option (List (Nat × Nat) × Bytes)
  | 0, _, _ => none
  | bound + 1, done, text =>
    match text, done.isEmpty with
    | 93 :: rest, false => some (done.reverse, rest)
    | _, _ =>
      match rangeEnd? text with
      | none => none
      | some (low, 45 :: rest) =>
        match rangeEnd? rest with
        | none => none
        | some (high, rest) => ranges? bound ((low, high) :: done) rest
      | some (low, rest) => ranges? bound ((low, low) :: done) rest

/-- Adds a part to the pattern so far. Chunks and parts are reversed. -/
def addPart (part : PatternPart) : List PatternChunk → List PatternChunk
  | [] => [⟨false, [part]⟩]
  | c :: rest => { c with parts := part :: c.parts } :: rest

/-- Adds a star to the pattern so far. Stars in a row are one star. -/
def addStar (done : List PatternChunk) : List PatternChunk :=
  match done with
  | ⟨true, []⟩ :: _ => done
  | _ => ⟨true, []⟩ :: done

/-- The pattern of chunks that are reversed, as their parts are. -/
def ofReversed (done : List PatternChunk) (broken : Bool) : Pattern :=
  ⟨(done.map fun c => { c with parts := c.parts.reverse }).reverse, broken⟩

/-- Reads a pattern after the chunks so far. A part that is malformed spoils the chunk that it stands in. The number bounds
how many parts. -/
def readParts : Nat → List PatternChunk → Bytes → Pattern
  | _, done, [] => ofReversed done false
  | 0, done, _ => ofReversed done.tail true
  | bound + 1, done, b :: rest =>
    if b = 42 then readParts bound (addStar done) rest
    else if b = 63 then readParts bound (addPart .any done) rest
    else if b = 92 then
      match rest with
      | [] => ofReversed done.tail true
      | c :: rest => readParts bound (addPart (.byte c) done) rest
    else if b = 91 then
      let (negated, rest) := match rest with
        | 94 :: rest => (true, rest)
        | _ => (false, rest)
      match ranges? (rest.length + 1) [] rest with
      | none => ofReversed done.tail true
      | some (ranges, rest) => readParts bound (addPart (.oneOf negated ranges) done) rest
    else readParts bound (addPart (.byte b) done) rest

def read (text : Bytes) : Pattern := readParts text.length [] text

/-- Takes what a part stands for from the start of a name. -/
def takePart? (p : PatternPart) (name : Bytes) : Option Bytes :=
  match name with
  | [] => none
  | b :: rest =>
    let r := Rune.decodeHead b rest
    let next := name.drop r.bytes.length
    match p with
    | .byte expected => if b = expected then some rest else none
    | .any => if b = Path.separator then none else some next
    | .oneOf negated ranges =>
      if ranges.any (fun (low, high) => low ≤ r.code && r.code ≤ high) = negated then none else some next

/-- Takes what parts stand for from the start of a name. The last parts have to take all of it. -/
def takeParts? (last : Bool) (parts : List PatternPart) (name : Bytes) : Option Bytes :=
  (parts.foldlM (fun rest p => takePart? p rest) name).filter fun rest => !last || rest.isEmpty

/-- Takes what parts stand for from the first place behind the start of a name where they fit. No slash is skipped. -/
def seekParts? (last : Bool) (parts : List PatternPart) : Bytes → Option Bytes
  | [] => none
  | b :: rest =>
    if b = Path.separator then none
    else match takeParts? last parts rest with
      | some next => some next
      | none => seekParts? last parts rest

/-- Does a name match the chunks? There is no answer if a malformed chunk follows them and is reached. -/
def acceptsFrom? (broken : Bool) : List PatternChunk → Bytes → Option Bool
  | [], name => if broken then none else some name.isEmpty
  | c :: rest, name =>
    -- a star at the very end takes all that is left
    if c.starred && c.parts.isEmpty then some (!name.contains Path.separator)
    else
      let last := rest.isEmpty && !broken
      match takeParts? last c.parts name with
      | some next => acceptsFrom? broken rest next
      | none =>
        match if c.starred then seekParts? last c.parts name else none with
        | some next => acceptsFrom? broken rest next
        | none => some false

/-- Does a name match the pattern? There is no answer if a malformed chunk is reached. -/
def accepts? (p : Pattern) (name : Bytes) : Option Bool := acceptsFrom? p.broken p.chunks name

end Pattern

end HackPlatform
